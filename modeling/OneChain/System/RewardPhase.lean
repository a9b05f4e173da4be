import OneChain.System.Rewards

/-!
# What the reward phase owes

The amounts of the reward phase in closed form, over its inputs: every validator's share by voting
power, what is cut from those whom a quorum has reported, and what the others get on top. The loops
of `validator_set.move` compute these amounts (`Valid.distributeRewards_eq`), and they fit: together
the validators are due at most the two rewards (`tally_stakingDue_le`, `tally_storageDue_le`). The
same holds whichever positions are slashed (`slashing_distribution`).
-/

namespace OneChain.System

open Lib Move VotingPower Validator List ValidatorSet VecMap

/-- What the reward phase is given. -/
structure RewardPhase where
  validators : List Validator
  records : ReportRecords
  (rate computation storageFund : ℕ)

namespace RewardPhase

variable (r : RewardPhase) (v : Validator)

/-- The validators among the reporters. -/
def reporting (reporters : VecSet Address) : List Validator :=
  r.validators.filter (·.suiAddress ∈ reporters.contents)

/-- The reporters have a quorum. -/
def quorum (reporters : VecSet Address) : Bool :=
  quorumThreshold ≤ tally votingPower (r.reporting reporters)

def isSlashed : Bool := (r.records.tryGet v.suiAddress).any r.quorum

def slashed : List Validator := r.validators.filter r.isSlashed

def stakingShare : ℕ := share v.votingPower r.computation totalVotingPower

def storageShare : ℕ := r.storageFund / r.validators.length

/-- What slashing takes from an amount. -/
def cut (amount : ℕ) : ℕ := share amount r.rate ValidatorSet.basisPointDenominator

/-- What slashing takes from the staking shares, and from the storage fund shares. -/
def stakingPot : ℕ := tally (fun v => r.cut (r.stakingShare v)) r.slashed

def storagePot : ℕ := tally (fun _ => r.cut r.storageShare) r.slashed

def unslashedPower : ℕ := totalVotingPower - tally votingPower r.slashed

def stakingDue : ℕ :=
  if r.isSlashed v then r.stakingShare v - r.cut (r.stakingShare v)
  else r.stakingShare v + share r.stakingPot v.votingPower r.unslashedPower

def storageDue : ℕ :=
  if r.isSlashed v then r.storageShare - r.cut r.storageShare
  else r.storageShare + r.storagePot / (r.validators.length - r.slashed.length)

/-- The validator's own part: its commission, and its part of the storage fund's reward. -/
def payout : ℕ :=
  share (r.stakingDue v) v.commissionRate ValidatorSet.basisPointDenominator + r.storageDue v

/-- Validators as an epoch leaves them, reports among them, and a rate that is a rate. -/
structure Valid : Prop where
  addresses : (r.validators.map suiAddress).Nodup
  power_pos : ∀ v ∈ r.validators, 0 < v.votingPower
  power_total : tally votingPower r.validators = totalVotingPower
  reported : ∀ e ∈ r.records.contents, e.1 ∈ r.validators.map suiAddress
  reporters : ∀ e ∈ r.records.contents, ∀ a ∈ e.2.contents, a ∈ r.validators.map suiAddress
  rate_le : r.rate ≤ ValidatorSet.basisPointDenominator

variable {r v}

theorem cut_le (h : r.rate ≤ ValidatorSet.basisPointDenominator) (amount : ℕ) :
    r.cut amount ≤ amount :=
  share_le_of_le h

/-! ## The amounts fit -/

theorem Valid.length_pos (h : r.Valid) : 0 < r.validators.length := by
  refine length_pos_iff.2 fun hnil => ?_
  have ht := h.power_total
  rw [hnil] at ht
  cases ht

/-- Those who are not slashed. -/
def unslashed (r : RewardPhase) : List Validator := r.validators.filter fun v => !r.isSlashed v

theorem Valid.power_unslashed (h : r.Valid) : tally votingPower r.unslashed = r.unslashedPower := by
  have hs := tally_filter_add votingPower r.isSlashed r.validators
  rw [h.power_total] at hs
  rw [unslashedPower, ← hs]
  exact (Nat.add_sub_cancel_left _ _).symm

theorem length_unslashed (r : RewardPhase) :
    r.unslashed.length = r.validators.length - r.slashed.length := by
  have hs := length_eq_length_filter_add (l := r.validators) r.isSlashed
  rw [hs]
  exact (Nat.add_sub_cancel_left _ _).symm

theorem Valid.unslashedPower_pos (h : r.Valid) (hv : v ∈ r.validators)
    (hs : r.isSlashed v = false) : 0 < r.unslashedPower := by
  have hmem : v ∈ r.unslashed := mem_filter.2 ⟨hv, by simp [hs]⟩
  rw [← h.power_unslashed]
  exact (h.power_pos v hv).trans_le (le_tally hmem)

theorem unslashed_length_pos (hv : v ∈ r.validators) (hs : r.isSlashed v = false) :
    0 < r.validators.length - r.slashed.length := by
  rw [← length_unslashed]
  exact length_pos_of_mem (mem_filter.2 ⟨hv, by simp [hs]⟩)

variable {f : Validator → ℕ} {done ws : List Validator} {p : Validator → Bool}
  {adj staking storageFund : ValidatorSet.RewardAdjustments}

/-- What `f` adds up to, if the slashed lose their cut and the others get a bonus that the cuts
cover. -/
theorem tally_adjusted_le {bonus : Validator → ℕ}
    (hb : tally bonus r.unslashed ≤ tally (fun v => r.cut (f v)) r.slashed)
    (hr : r.rate ≤ ValidatorSet.basisPointDenominator) :
    tally (fun v => if r.isSlashed v then f v - r.cut (f v) else f v + bonus v) r.validators ≤
      tally f r.validators := by
  set due := fun v => if r.isSlashed v then f v - r.cut (f v) else f v + bonus v with hdue
  have hslashed : tally due r.slashed + tally (fun v => r.cut (f v)) r.slashed =
      tally f r.slashed := by
    rw [← tally_add]
    refine tally_congr fun w hw => ?_
    rw [hdue]
    simp only [(mem_filter.1 hw).2]
    exact Nat.sub_add_cancel (cut_le hr _)
  have hu : tally due r.unslashed = tally f r.unslashed + tally bonus r.unslashed := by
    rw [← tally_add]
    refine tally_congr fun w hw => ?_
    have hno : r.isSlashed w = false := by simpa using (mem_filter.1 hw).2
    simp [hdue, hno]
  have hd := tally_filter_add due r.isSlashed r.validators
  have hfs := tally_filter_add f r.isSlashed r.validators
  change tally due r.slashed + tally due r.unslashed = _ at hd
  change tally f r.slashed + tally f r.unslashed = _ at hfs
  omega

theorem Valid.tally_stakingShare_le (h : r.Valid) :
    tally r.stakingShare r.validators ≤ r.computation := by
  have hs : ∀ w ∈ r.validators,
      r.stakingShare w = share r.computation w.votingPower totalVotingPower :=
    fun w _ => share_comm _ _ _
  calc tally r.stakingShare r.validators
      = tally (fun w => share r.computation w.votingPower totalVotingPower) r.validators :=
        tally_congr hs
    _ ≤ share r.computation (tally votingPower r.validators) totalVotingPower :=
        tally_share_le _ _ _ _
    _ = r.computation := by rw [h.power_total, share_self _ (by decide)]

theorem tally_storageShare_le (r : RewardPhase) :
    tally (fun _ : Validator => r.storageShare) r.validators ≤ r.storageFund := by
  rw [tally_const]
  exact Nat.mul_div_le _ _

/-- **The staking rewards suffice.** -/
theorem Valid.tally_stakingDue_le (h : r.Valid) :
    tally r.stakingDue r.validators ≤ r.computation := by
  refine (tally_adjusted_le ?_ h.rate_le).trans h.tally_stakingShare_le
  calc tally (fun v => share r.stakingPot v.votingPower r.unslashedPower) r.unslashed
      ≤ share r.stakingPot (tally votingPower r.unslashed) r.unslashedPower :=
        tally_share_le _ _ _ _
    _ ≤ r.stakingPot := share_le_of_le h.power_unslashed.le

/-- **The storage fund's reward suffices.** -/
theorem Valid.tally_storageDue_le (h : r.Valid) :
    tally r.storageDue r.validators ≤ r.storageFund := by
  refine (tally_adjusted_le ?_ h.rate_le).trans r.tally_storageShare_le
  rw [tally_const, length_unslashed]
  exact Nat.mul_div_le _ _

/-! ## Who is slashed -/

open ValidatorSet in
/-- The voting power of validators, found by their addresses. -/
theorem Valid.sumVotingPowerByAddresses_eq (h : r.Valid) (hws : ∀ w ∈ ws, w ∈ r.validators)
    {sum : ℕ} (hb : sum + tally votingPower ws < u64Bound) :
    (ws.map suiAddress).foldlM (fun sum addr => do
      let validator ← getValidatorRef r.validators addr
      addU64 sum validator.votingPower) sum = .ok (sum + tally votingPower ws) := by
  induction ws generalizing sum with
  | nil => rfl
  | cons w ws ih =>
    rw [tally_cons] at hb ⊢
    have hadd : addU64 sum w.votingPower = .ok (sum + w.votingPower) := addU64_ok.2 ⟨by omega, rfl⟩
    rw [map_cons, foldlM_cons, getValidatorRef_of_mem h.addresses (hws w mem_cons_self), ok_bind,
      hadd, ok_bind, ih (fun x hx => hws x (mem_cons_of_mem _ hx)) (by omega), Nat.add_assoc]

theorem mem_of_perm_filter (hp : ws.Perm (r.validators.filter p)) : ∀ w ∈ ws, w ∈ r.validators :=
  fun _ hw => mem_of_mem_filter (hp.mem_iff.1 hw)

/-- Some of the validators have no more power than all of them. -/
theorem Valid.tally_part_lt (h : r.Valid) (hws : ws.Perm (r.validators.filter p)) :
    tally votingPower ws < u64Bound := by
  have hs := tally_filter_add votingPower p r.validators
  rw [h.power_total] at hs
  rw [tally_perm hws]
  have : totalVotingPower < u64Bound := by decide
  omega

theorem Valid.sumVotingPower_eq (h : r.Valid) (hp : ws.Perm (r.validators.filter p)) :
    sumVotingPowerByAddresses r.validators (ws.map suiAddress) =
      .ok (tally votingPower (r.validators.filter p)) := by
  have hz : 0 + tally votingPower ws < u64Bound := by
    rw [Nat.zero_add]
    exact h.tally_part_lt hp
  rw [sumVotingPowerByAddresses, h.sumVotingPowerByAddresses_eq (mem_of_perm_filter hp) hz,
    Nat.zero_add, tally_perm hp]

theorem Valid.reviewRecord_eq (h : r.Valid) {e : Address × VecSet Address}
    (he : e ∈ r.records.contents) (acc : List Address) :
    reviewRecord r.validators acc e = .ok (if r.quorum e.2 then acc ++ [e.1] else acc) := by
  obtain ⟨ws, hk, hws⟩ := exists_of_keys (h.reporters e he)
  have hp : ws.Perm (r.reporting e.2) := by
    refine perm_filter h.addresses (hk ▸ e.2.nodup) hws fun a _ => ?_
    rw [hk]
    exact decide_eq_true_iff
  have hsum : sumVotingPowerByAddresses r.validators e.2.contents =
      .ok (tally votingPower (r.reporting e.2)) := hk ▸ h.sumVotingPower_eq hp
  have hf : (findValidator r.validators e.1).isSome = true := by
    rw [Option.isSome_iff_ne_none]
    intro hn
    exact findIdx?_key_none.1 hn (h.reported e he)
  rw [reviewRecord, check_of hf, ok_bind, hsum, ok_bind, pure_ok]
  simp only [quorum, decide_eq_true_eq]

/-- The addresses in the order in which their records are popped. -/
def slashedAddresses (r : RewardPhase) : List Address :=
  (r.records.contents.reverse.filter fun e => r.quorum e.2).map Prod.fst

theorem foldl_filter {α β : Type} (p : α → Bool) (f : α → β) (l : List α) (acc : List β) :
    l.foldl (fun acc a => if p a then acc ++ [f a] else acc) acc = acc ++ (l.filter p).map f := by
  induction l generalizing acc with
  | nil => simp
  | cons a l ih =>
    rw [foldl_cons, ih]
    cases hp : p a <;> simp [hp]

theorem Valid.computeSlashedValidators_eq (h : r.Valid) :
    computeSlashedValidators r.validators r.records = .ok r.slashedAddresses := by
  rw [computeSlashedValidators, foldlM_ok fun acc e he => h.reviewRecord_eq (mem_reverse.1 he) acc,
    foldl_filter, nil_append, slashedAddresses]

theorem mem_slashedAddresses : v.suiAddress ∈ r.slashedAddresses ↔ r.isSlashed v = true := by
  rw [slashedAddresses, isSlashed, Option.any_eq_true, mem_map]
  constructor
  · rintro ⟨⟨a, reporters⟩, he, rfl⟩
    obtain ⟨hmem, hq⟩ := mem_filter.1 he
    exact ⟨reporters, tryGet_eq_some.2 (mem_reverse.1 hmem), hq⟩
  · rintro ⟨reporters, hget, hq⟩
    refine ⟨(v.suiAddress, reporters), mem_filter.2 ⟨?_, hq⟩, rfl⟩
    exact mem_reverse.2 (tryGet_eq_some.1 hget)

/-- The slashed validators, in the order of their records. -/
theorem Valid.exists_slashed (h : r.Valid) :
    ∃ ws : List Validator, ws.map suiAddress = r.slashedAddresses ∧ ws.Perm r.slashed := by
  have hk : ∀ a ∈ r.slashedAddresses, a ∈ r.validators.map suiAddress := by
    intro a ha
    obtain ⟨e, he, rfl⟩ := mem_map.1 ha
    exact h.reported e (mem_reverse.1 (mem_filter.1 he).1)
  have hn : r.slashedAddresses.Nodup := by
    refine List.Nodup.sublist (filter_sublist.map _) ?_
    rw [map_reverse]
    exact nodup_reverse.2 r.records.nodupKeys
  obtain ⟨ws, hmap, hws⟩ := exists_of_keys hk
  refine ⟨ws, hmap, ?_⟩
  refine perm_filter h.addresses (hmap ▸ hn) hws fun a ha => ?_
  rw [hmap]
  exact mem_slashedAddresses.symm

/-! ## What slashing takes -/

/-- The position of a validator. -/
def index (r : RewardPhase) (v : Validator) : ℕ :=
  (ValidatorSet.findValidator r.validators v.suiAddress).getD 0

section

variable (h : r.Valid)
include h

theorem Valid.index_eq {i : ℕ} (hi : r.validators[i]? = some v) : r.index v = i := by
  rw [index, findValidator, findIdx?_key h.addresses hi rfl]
  rfl

theorem Valid.getElem?_index (hv : v ∈ r.validators) : r.validators[r.index v]? = some v := by
  obtain ⟨i, hi⟩ := getElem?_of_mem hv
  rwa [h.index_eq hi]

theorem Valid.borrow_index (f : Validator → ℕ) (hv : v ∈ r.validators) :
    Vector.borrow (r.validators.map f) (r.index v) = .ok (f v) := by
  rw [Vector.borrow_ok, getElem?_map, h.getElem?_index hv]
  rfl

theorem Valid.index_inj {w : Validator} (hv : v ∈ r.validators)
    (hw : w ∈ r.validators) (heq : r.index v = r.index w) : v = w := by
  have hget := h.getElem?_index hv
  rw [heq, h.getElem?_index hw] at hget
  exact (Option.some.inj hget).symm

theorem Valid.getValidatorIndices_eq (hws : ∀ w ∈ ws, w ∈ r.validators) :
    getValidatorIndices r.validators (ws.map suiAddress) = .ok (ws.map r.index) := by
  have he : ∀ w ∈ ws, getValidatorIndex r.validators w.suiAddress = .ok (r.index w) :=
    fun w hw => getValidatorIndex_of_mem h.addresses (h.getElem?_index (hws w hw))
  rw [getValidatorIndices, mapM_map]
  exact mapM_ok he

end

/-- The adjustments after the validators `done` have been slashed on the amounts `f`. -/
structure Adjusted (r : RewardPhase) (f : Validator → ℕ) (done : List Validator)
    (adj : ValidatorSet.RewardAdjustments) : Prop where
  total : adj.total = tally (fun v => r.cut (f v)) done
  individual : adj.individual.contents = done.map fun v => (r.index v, r.cut (f v))

theorem Adjusted.zero (r : RewardPhase) (f : Validator → ℕ) :
    r.Adjusted f [] ValidatorSet.RewardAdjustments.zero := ⟨rfl, rfl⟩

theorem Adjusted.keys (hadj : r.Adjusted f done adj) : adj.individual.keys = done.map r.index := by
  rw [VecMap.keys, hadj.individual, map_map]
  rfl

theorem Adjusted.adjustReward (hadj : r.Adjusted f done adj) (h : r.Valid)
    (hdo : ∀ d ∈ done, d ∈ r.validators) (hv : v ∈ r.validators)
    (hnew : v.suiAddress ∉ done.map suiAddress)
    (hb : tally (fun v => r.cut (f v)) (done ++ [v]) < u64Bound) :
    ∃ adj', ValidatorSet.adjustReward r.rate (r.validators.map f) adj (r.index v) = .ok adj' ∧
      r.Adjusted f (done ++ [v]) adj' := by
  rw [tally_append] at hb
  have hcut : mulDiv (f v) r.rate basisPointDenominator = .ok (r.cut (f v)) :=
    mulDiv_ok.2 ⟨by decide, (Nat.le_add_left _ _).trans_lt hb, rfl⟩
  have hkey : r.index v ∉ adj.individual.keys := by
    rw [hadj.keys]
    intro hmem
    obtain ⟨d, hd, heq⟩ := mem_map.1 hmem
    exact hnew (h.index_inj (hdo d hd) hv heq ▸ mem_map_of_mem hd)
  obtain ⟨map', hins, hc⟩ := insert_of_not_mem hkey (r.cut (f v))
  have hadd : addU64 adj.total (r.cut (f v)) = .ok (adj.total + r.cut (f v)) :=
    addU64_ok.2 ⟨hadj.total ▸ hb, rfl⟩
  refine ⟨⟨adj.total + r.cut (f v), map'⟩, ?_, ?_, ?_⟩
  · rw [ValidatorSet.adjustReward, h.borrow_index f hv, ok_bind, hcut, ok_bind, hins, ok_bind,
      hadd, ok_bind, pure_ok]
  · show adj.total + r.cut (f v) = _
    rw [hadj.total, tally_append, tally_cons, tally_nil, Nat.add_zero]
  · rw [hc, hadj.individual, map_append]
    rfl

/-- Both rewards are cut in one loop over the slashed validators. -/
theorem Valid.foldlM_adjustReward (h : r.Valid) {g : Validator → ℕ} {rest : List Validator}
    (hall : ∀ d ∈ done ++ rest, d ∈ r.validators) (hnodup : ((done ++ rest).map suiAddress).Nodup)
    (hf : tally (fun v => r.cut (f v)) (done ++ rest) < u64Bound)
    (hg : tally (fun v => r.cut (g v)) (done ++ rest) < u64Bound)
    (hstak : r.Adjusted f done staking) (hstor : r.Adjusted g done storageFund) :
    ∃ staking' storageFund',
      (rest.map r.index).foldlM (fun (staking, storageFund) i => do
        let staking ← ValidatorSet.adjustReward r.rate (r.validators.map f) staking i
        let storageFund ← ValidatorSet.adjustReward r.rate (r.validators.map g) storageFund i
        return (staking, storageFund)) (staking, storageFund) = .ok (staking', storageFund') ∧
      r.Adjusted f (done ++ rest) staking' ∧ r.Adjusted g (done ++ rest) storageFund' := by
  induction rest generalizing done staking storageFund with
  | nil =>
    refine ⟨staking, storageFund, rfl, ?_, ?_⟩
    · rwa [append_nil]
    · rwa [append_nil]
  | cons w rest ih =>
    have hassoc : done ++ w :: rest = (done ++ [w]) ++ rest := by simp
    have hnew : w.suiAddress ∉ done.map suiAddress := by
      rw [map_append] at hnodup
      intro hmem
      exact (nodup_append.1 hnodup).2.2 _ hmem _ mem_cons_self rfl
    have hdone : ∀ d ∈ done, d ∈ r.validators := fun d hd => hall d (mem_append_left _ hd)
    have hw : w ∈ r.validators := hall w (by simp)
    have hpart : ∀ k : Validator → ℕ, tally k (done ++ w :: rest) < u64Bound →
        tally k (done ++ [w]) < u64Bound := by
      intro k hk
      rw [hassoc, tally_append] at hk
      exact (Nat.le_add_right _ _).trans_lt hk
    obtain ⟨staking₁, hs₁, hadj₁⟩ := hstak.adjustReward h hdone hw hnew (hpart _ hf)
    obtain ⟨storage₁, hs₂, hadj₂⟩ := hstor.adjustReward h hdone hw hnew (hpart _ hg)
    rw [hassoc] at hall hnodup hf hg ⊢
    obtain ⟨staking', storage', hrest, hout⟩ := ih hall hnodup hf hg hadj₁ hadj₂
    refine ⟨staking', storage', ?_, hout⟩
    show (do
      let staking ← adjustReward r.rate (r.validators.map f) staking (r.index w)
      let storageFund ← adjustReward r.rate (r.validators.map g) storageFund (r.index w)
      pure (staking, storageFund)) >>= _ = _
    rw [hs₁, hs₂]
    exact hrest

theorem Valid.tally_cut_lt (h : r.Valid) (hws : ws.Perm r.slashed)
    (hf : tally f r.validators < u64Bound) : tally (fun v => r.cut (f v)) ws < u64Bound := by
  have hc : tally (fun v => r.cut (f v)) r.slashed ≤ tally f r.slashed :=
    tally_le_tally fun v _ => cut_le h.rate_le _
  have hs : tally f r.slashed + tally f r.unslashed = tally f r.validators :=
    tally_filter_add f r.isSlashed r.validators
  rw [tally_perm hws]
  omega

/-! ## What everybody is due -/

/-- A slashed amount is reduced, any other grows by its bonus. -/
theorem Adjusted.adjustedAmount (hadj : r.Adjusted f done adj) (h : r.Valid)
    (hdo : done.Perm r.slashed) (hv : v ∈ r.validators) {bonus : Call ℕ} {b : ℕ}
    (hbo : r.isSlashed v = false → bonus = .ok b ∧ f v + b < u64Bound) :
    ValidatorSet.adjustedAmount adj (r.index v) (f v) bonus =
      .ok (if r.isSlashed v then f v - r.cut (f v) else f v + b) := by
  have hmem : ∀ d ∈ done, d ∈ r.validators ∧ r.isSlashed d = true := fun d hd =>
    mem_filter.1 (hdo.mem_iff.1 hd)
  cases hs : r.isSlashed v with
  | true =>
    have hget : adj.individual.tryGet (r.index v) = some (r.cut (f v)) := by
      rw [tryGet_eq_some, hadj.individual]
      exact mem_map.2 ⟨v, hdo.mem_iff.2 (mem_filter.2 ⟨hv, hs⟩), rfl⟩
    rw [ValidatorSet.adjustedAmount, hget]
    exact subU64_ok.2 ⟨cut_le h.rate_le _, rfl⟩
  | false =>
    have hget : adj.individual.tryGet (r.index v) = none := by
      rw [tryGet_eq_none, hadj.keys]
      intro hin
      obtain ⟨d, hd, heq⟩ := mem_map.1 hin
      rw [← h.index_inj (hmem d hd).1 hv heq, (hmem d hd).2] at hs
      cases hs
    obtain ⟨hb, hf⟩ := hbo hs
    rw [ValidatorSet.adjustedAmount, hget]
    simp only [hb]
    exact addU64_ok.2 ⟨hf, rfl⟩

theorem due_lt {total : ℕ} (hv : v ∈ r.validators) (hle : tally f r.validators ≤ total)
    (ht : total < u64Bound) : f v < u64Bound :=
  ((le_tally hv).trans hle).trans_lt ht

section Loops

variable (h : r.Valid) (hc : r.computation < u64Bound)

include h hc

theorem Valid.computeUnadjustedRewardDistribution_eq :
    computeUnadjustedRewardDistribution r.validators totalVotingPower r.computation r.storageFund =
      .ok (r.validators.map r.stakingShare, r.validators.map fun _ => r.storageShare) := by
  have he : ∀ w ∈ r.validators,
      mulDiv w.votingPower r.computation totalVotingPower = .ok (r.stakingShare w) :=
    fun w hw => mulDiv_ok.2 ⟨by decide, due_lt hw h.tally_stakingShare_le hc, rfl⟩
  have hdiv : divU64 r.storageFund r.validators.length = .ok r.storageShare :=
    divU64_ok.2 ⟨h.length_pos, rfl⟩
  rw [computeUnadjustedRewardDistribution, hdiv, ok_bind, mapM_ok he, ok_bind, pure_ok]

variable (hf : r.storageFund < u64Bound)

include hf

/-- Both rewards are adjusted for the slashed validators, who are taken from the last. -/
theorem Valid.computeRewardAdjustments_eq (hp : ws.Perm r.slashed) :
    ∃ staking storageFund, computeRewardAdjustments (ws.map r.index) r.rate
        (r.validators.map r.stakingShare) (r.validators.map fun _ => r.storageShare) =
        .ok (staking, storageFund) ∧
      r.Adjusted r.stakingShare ws.reverse staking ∧
      r.Adjusted (fun _ => r.storageShare) ws.reverse storageFund := by
  have hrev : ([] ++ ws.reverse).Perm r.slashed := (reverse_perm ws).trans hp
  have hdi : (([] ++ ws.reverse).map suiAddress).Nodup :=
    (hrev.map _).nodup_iff.2 (h.addresses.sublist (filter_sublist.map _))
  rw [computeRewardAdjustments, ← map_reverse]
  exact h.foldlM_adjustReward (mem_of_perm_filter hrev) hdi
    (h.tally_cut_lt hrev (h.tally_stakingShare_le.trans_lt hc))
    (h.tally_cut_lt hrev (r.tally_storageShare_le.trans_lt hf)) (.zero r _) (.zero r _)

theorem Valid.computeAdjustedRewardDistribution_eq (hdone : done.Perm r.slashed)
    (hstak : r.Adjusted r.stakingShare done staking)
    (hstor : r.Adjusted (fun _ => r.storageShare) done storageFund) :
    computeAdjustedRewardDistribution r.validators totalVotingPower
        (tally votingPower r.slashed) (r.validators.map r.stakingShare)
        (r.validators.map fun _ => r.storageShare) staking storageFund =
      .ok (r.validators.map fun v => (r.stakingDue v, r.storageDue v)) := by
  have hpower : subU64 .other totalVotingPower (tally votingPower r.slashed) =
      .ok r.unslashedPower := by
    have hsplit := tally_filter_add votingPower r.isSlashed r.validators
    rw [h.power_total] at hsplit
    exact subU64_ok.2 ⟨hsplit ▸ Nat.le_add_right _ _, rfl⟩
  have hsize : staking.individual.size = r.slashed.length := by
    rw [size, hstak.individual, length_map, hdone.length_eq]
  have hcount : subU64 .other r.validators.length staking.individual.size =
      .ok (r.validators.length - r.slashed.length) := by
    rw [hsize]
    exact subU64_ok.2 ⟨length_filter_le _ _, rfl⟩
  have hpots : staking.total = r.stakingPot ∧ storageFund.total = r.storagePot :=
    ⟨hstak.total.trans (tally_perm hdone), hstor.total.trans (tally_perm hdone)⟩
  have heach : ∀ e ∈ r.validators.zipIdx,
      (do
        let unadjustedStaking ← Vector.borrow (r.validators.map r.stakingShare) e.2
        let adjustedStaking ← adjustedAmount staking e.2 unadjustedStaking
          (mulDiv staking.total e.1.votingPower r.unslashedPower)
        let unadjustedStorageFund ← Vector.borrow (r.validators.map fun _ => r.storageShare) e.2
        let adjustedStorageFund ← adjustedAmount storageFund e.2 unadjustedStorageFund
          (divU64 storageFund.total (r.validators.length - r.slashed.length))
        return (adjustedStaking, adjustedStorageFund)) =
      .ok (r.stakingDue e.1, r.storageDue e.1) := by
    rintro ⟨w, i⟩ he
    have hi : r.validators[i]? = some w := mem_zipIdx_iff_getElem?.1 he
    have hw : w ∈ r.validators := mem_of_getElem? hi
    obtain rfl := h.index_eq hi
    have hdue := due_lt hw h.tally_stakingDue_le hc
    have hdue' := due_lt hw h.tally_storageDue_le hf
    have hbonus : r.isSlashed w = false → mulDiv staking.total w.votingPower r.unslashedPower =
            .ok (share r.stakingPot w.votingPower r.unslashedPower) ∧
          r.stakingShare w + share r.stakingPot w.votingPower r.unslashedPower < u64Bound := by
      intro hs
      rw [stakingDue, hs] at hdue
      refine ⟨mulDiv_ok.2 ⟨h.unslashedPower_pos hw hs, ?_, by rw [hpots.1]⟩, hdue⟩
      rw [hpots.1]
      exact (Nat.le_add_left _ _).trans_lt hdue
    have hbonus' : r.isSlashed w = false →
        divU64 storageFund.total (r.validators.length - r.slashed.length) =
            .ok (r.storagePot / (r.validators.length - r.slashed.length)) ∧
          r.storageShare + r.storagePot / (r.validators.length - r.slashed.length) < u64Bound := by
      intro hs
      rw [storageDue, hs] at hdue'
      exact ⟨divU64_ok.2 ⟨unslashed_length_pos hw hs, by rw [hpots.2]⟩, hdue'⟩
    simp only [h.borrow_index _ hw, ok_bind, hstak.adjustedAmount h hdone hw hbonus,
      hstor.adjustedAmount h hdone hw hbonus']
    rfl
  have hmap : (r.validators.zipIdx.map fun e => (r.stakingDue e.1, r.storageDue e.1)) =
      r.validators.map fun v => (r.stakingDue v, r.storageDue v) := by
    have hfst : r.validators.zipIdx.map Prod.fst = r.validators := zipIdx_map_fst 0 _
    exact (map_map (g := fun v => (r.stakingDue v, r.storageDue v))).symm.trans (congrArg _ hfst)
  rw [computeAdjustedRewardDistribution, hpower, hcount, ← hmap]
  exact mapM_ok heach

/-- **The loops compute the amounts.** What is left to do is to pay them out. -/
theorem Valid.distributeRewards_eq (epoch : ℕ) :
    distributeRewards r.validators r.records r.rate r.computation r.storageFund epoch =
      distributeReward r.validators
        (r.validators.map fun v => (r.stakingDue v, r.storageDue v)) r.computation r.storageFund
        epoch := by
  obtain ⟨ws, hk, hp⟩ := h.exists_slashed
  have hpo : sumVotingPowerByAddresses r.validators r.slashedAddresses =
      .ok (tally votingPower r.slashed) := hk ▸ h.sumVotingPower_eq hp
  have hind : getValidatorIndices r.validators r.slashedAddresses =
      .ok (ws.map r.index) := hk ▸ h.getValidatorIndices_eq (mem_of_perm_filter hp)
  have hrev : ws.reverse.Perm r.slashed := (reverse_perm ws).trans hp
  obtain ⟨staking, storageFund, ha, hs, hst⟩ := h.computeRewardAdjustments_eq hc hf hp
  simp only [distributeRewards, h.computeUnadjustedRewardDistribution_eq hc, ok_bind,
    h.computeSlashedValidators_eq, hpo, hind, ha,
    h.computeAdjustedRewardDistribution_eq hc hf hrev hs hst]

end Loops

/-! ## Slashing by position

The distributions read powers and positions only, so they can be computed on validators that have
their positions for addresses, and any set of positions can be slashed: everybody reports them. -/

variable (vs : List Validator) {slashed : List ℕ} {rate computation storageFund : ℕ}

/-- The validators, each with its position as its address. -/
def numbered : List Validator :=
  vs.mapIdx fun i v => { v with metadata := { v.metadata with suiAddress := i } }

theorem map_suiAddress_numbered : (numbered vs).map suiAddress = range vs.length :=
  ext_getElem (by simp [numbered]) (by simp [numbered, suiAddress])

theorem map_votingPower_numbered : (numbered vs).map votingPower = vs.map votingPower :=
  ext_getElem (by simp [numbered]) (by simp [numbered])

theorem length_numbered : (numbered vs).length = vs.length := length_mapIdx

theorem computeUnadjustedRewardDistribution_numbered (total : ℕ) :
    computeUnadjustedRewardDistribution (numbered vs) total computation storageFund =
      computeUnadjustedRewardDistribution vs total computation storageFund := by
  have hpow : ∀ ws : List Validator, ws.mapM (fun w => mulDiv w.votingPower computation total) =
        (ws.map votingPower).mapM (mulDiv · computation total) := by
    intro ws
    rw [mapM_map]
    rfl
  unfold computeUnadjustedRewardDistribution
  simp only [hpow, map_votingPower_numbered, map_const', length_numbered]

theorem computeAdjustedRewardDistribution_numbered (total power : ℕ)
    (us uf : List ℕ) (staking storageFund : RewardAdjustments) :
    computeAdjustedRewardDistribution (numbered vs) total power us uf staking storageFund =
      computeAdjustedRewardDistribution vs total power us uf staking storageFund := by
  have hzip : (numbered vs).zipIdx = vs.zipIdx.map fun e =>
      ({ e.1 with metadata := { e.1.metadata with suiAddress := e.2 } }, e.2) :=
    ext_getElem (by simp [numbered]) (by simp [numbered])
  rw [computeAdjustedRewardDistribution, length_numbered, hzip]
  simp only [mapM_map]
  rfl

/-- The phase in which everybody has reported the validators at `slashed`. -/
def slashing (slashed : List ℕ) (hslashed : slashed.Nodup)
    (rate computation storageFund : ℕ) : RewardPhase where
  validators := numbered vs
  records := ⟨slashed.reverse.map fun i => (i, ⟨range vs.length, nodup_range⟩), by
    rw [map_map]
    exact (nodup_reverse.2 hslashed).map fun _ _ h => h⟩
  rate := rate
  computation := computation
  storageFund := storageFund

variable {vs} {hslashed : slashed.Nodup}

theorem suiAddress_numbered {i : ℕ} (hv : (numbered vs)[i]? = some v) : v.suiAddress = i := by
  rw [numbered, getElem?_mapIdx, Option.map_eq_some_iff] at hv
  obtain ⟨_, _, rfl⟩ := hv
  rfl

theorem valid_slashing (hpos : ∀ v ∈ vs, 0 < v.votingPower)
    (ht : tally votingPower vs = totalVotingPower) (hin : ∀ i ∈ slashed, i < vs.length)
    (hr : rate ≤ ValidatorSet.basisPointDenominator) :
    (slashing vs slashed hslashed rate computation storageFund).Valid where
  addresses := by
    rw [slashing, map_suiAddress_numbered]
    exact nodup_range
  power_pos := by
    intro v hv
    have hmem : v.votingPower ∈ (numbered vs).map votingPower := mem_map_of_mem hv
    rw [map_votingPower_numbered] at hmem
    obtain ⟨w, hw, heq⟩ := mem_map.1 hmem
    exact heq ▸ hpos w hw
  power_total := by
    rw [← ht, tally, tally, slashing, map_votingPower_numbered]
  reported := by
    intro e he
    obtain ⟨i, hi, rfl⟩ := mem_map.1 he
    rw [slashing, map_suiAddress_numbered, mem_range]
    exact hin i (mem_reverse.1 hi)
  reporters := by
    intro e he a ha
    obtain ⟨i, hi, rfl⟩ := mem_map.1 he
    rw [slashing, map_suiAddress_numbered]
    exact ha
  rate_le := hr

/-- Everybody is a quorum. -/
theorem slashedAddresses_slashing
    (h : (slashing vs slashed hslashed rate computation storageFund).Valid) :
    (slashing vs slashed hslashed rate computation storageFund).slashedAddresses = slashed := by
  set r := slashing vs slashed hslashed rate computation storageFund
  have hq : ∀ e ∈ r.records.contents.reverse, r.quorum e.2 = true := by
    intro e he
    obtain ⟨i, hi, rfl⟩ := mem_map.1 (mem_reverse.1 he)
    have hall : r.reporting ⟨range vs.length, nodup_range⟩ = r.validators := by
      refine filter_eq_self.2 fun v hv => decide_eq_true ?_
      show v.suiAddress ∈ range vs.length
      rw [← map_suiAddress_numbered]
      exact mem_map_of_mem hv
    rw [quorum, hall, h.power_total]
    rfl
  rw [slashedAddresses, filter_eq_self.2 hq]
  simp [r, slashing, Function.comp_def]

/-- **Slashing is safe arithmetic.** Whatever positions are slashed, the distributions are computed,
they fit into the two rewards, and slashing takes from the slashed and gives to the others. -/
theorem slashing_distribution (hpos : ∀ v ∈ vs, 0 < v.votingPower)
    (htotal : tally votingPower vs = totalVotingPower) (hslashed : slashed.Nodup)
    (hindex : ∀ i ∈ slashed, i < vs.length) (hrate : rate ≤ ValidatorSet.basisPointDenominator)
    (hc : computation < u64Bound) (hf : storageFund < u64Bound) :
    ∃ us uf staking fund adjusted,
      computeUnadjustedRewardDistribution vs totalVotingPower computation storageFund =
        .ok (us, uf) ∧
      computeRewardAdjustments slashed rate us uf = .ok (staking, fund) ∧
      computeAdjustedRewardDistribution vs totalVotingPower
        (tally (fun i => (vs.map votingPower).getD i 0) slashed) us uf staking fund =
        .ok adjusted ∧
      tally Prod.fst adjusted ≤ computation ∧ tally Prod.snd adjusted ≤ storageFund ∧
      adjusted.length = vs.length ∧
      ∀ i < vs.length, ∃ u f a, us[i]? = some u ∧ uf[i]? = some f ∧ adjusted[i]? = some a ∧
        if i ∈ slashed then a.1 ≤ u ∧ a.2 ≤ f else u ≤ a.1 ∧ f ≤ a.2 := by
  set r := slashing vs slashed hslashed rate computation storageFund
  have h : r.Valid := valid_slashing hpos htotal hindex hrate
  obtain ⟨ws, hkeys, hperm⟩ := h.exists_slashed
  have hws := mem_of_perm_filter hperm
  rw [slashedAddresses_slashing h] at hkeys
  have hind : ws.map r.index = slashed := by
    rw [← hkeys]
    exact map_congr_left fun w hw => (suiAddress_numbered (h.getElem?_index (hws w hw))).symm
  have hpower : tally (fun i => (vs.map votingPower).getD i 0) slashed =
      tally votingPower r.slashed := by
    rw [← tally_perm hperm, ← hind, tally, map_map]
    refine congrArg List.sum (map_congr_left fun w hw => ?_)
    have hget : (numbered vs)[r.index w]? = some w := h.getElem?_index (hws w hw)
    rw [← map_votingPower_numbered]
    simp [hget]
  obtain ⟨staking, fund, hadjust, hstak, hfund⟩ := h.computeRewardAdjustments_eq hc hf hperm
  have hrev : ws.reverse.Perm r.slashed := (reverse_perm ws).trans hperm
  have hout := h.computeAdjustedRewardDistribution_eq hc hf hrev hstak hfund
  have hin := h.computeUnadjustedRewardDistribution_eq hc
  refine ⟨_, _, staking, fund, r.validators.map fun v => (r.stakingDue v, r.storageDue v),
    computeUnadjustedRewardDistribution_numbered vs _ ▸ hin, hind ▸ hadjust,
    hpower ▸ computeAdjustedRewardDistribution_numbered vs .. ▸ hout, ?_, ?_, ?_, ?_⟩
  · rw [tally, map_map]
    exact h.tally_stakingDue_le
  · rw [tally, map_map]
    exact h.tally_storageDue_le
  · rw [length_map]
    exact length_numbered vs
  · intro i hi
    obtain ⟨v, hv⟩ : ∃ v, r.validators[i]? = some v :=
      ⟨_, getElem?_eq_getElem ((length_numbered vs).symm ▸ hi)⟩
    refine ⟨r.stakingShare v, r.storageShare, (r.stakingDue v, r.storageDue v), ?_, ?_, ?_, ?_⟩
    iterate 3 rw [getElem?_map, hv]; rfl
    have hmem : i ∈ slashed ↔ r.isSlashed v = true := by
      rw [← mem_slashedAddresses, slashedAddresses_slashing h, suiAddress_numbered hv]
    simp only [hmem, stakingDue, storageDue]
    split
    · exact ⟨Nat.sub_le _ _, Nat.sub_le _ _⟩
    · exact ⟨Nat.le_add_right _ _, Nat.le_add_right _ _⟩

/-- Two validators, for a concrete distribution. -/
def two : List Validator :=
  [{ plain 1 1 2 with votingPower := 4000 }, { plain 2 3 4 with votingPower := 6000 }]

theorem slashing_distribution_two :
    ∃ us uf staking fund, computeUnadjustedRewardDistribution two totalVotingPower 1000 100 =
        .ok (us, uf) ∧ computeRewardAdjustments [1] 5000 us uf = .ok (staking, fund) := by
  have hpos : ∀ v ∈ two, 0 < v.votingPower := by decide
  obtain ⟨us, uf, staking, fund, _, hin, ha, _⟩ := slashing_distribution hpos rfl
    (nodup_singleton 1) (by decide) (by decide : 5000 ≤ _) (by decide : 1000 < _)
    (by decide : 100 < _)
  exact ⟨us, uf, staking, fund, hin, ha⟩

end RewardPhase

end OneChain.System
