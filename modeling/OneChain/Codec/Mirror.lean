import OneChain.Codec.RustTypes

/-!
# Two declarations of one layout

The node keeps its own declarations of the structs that Move stores, and nothing but the order and
the widths of the fields ties the two together. The system state agrees with its mirror all the way
down; the receipt of a stake does not, since `StakedOct` got a field `lock` that `governance.rs`
does not know: one byte is left over, and reading fails for every receipt there is.

* `read_back_iff` — the node reads back what Move stored exactly for the system state.
* `tryFrom_stored` — no stored `StakedOct` object can be converted.
-/

namespace OneChain.Codec

open Lib Lib.Bcs ReadsFields List

/-! ## The framework types -/

variable {bytes : Bytes}

/-- A Move struct with one field is stored as that field. -/
theorem mem_fields_singleton {e : Option Bytes} : bytes ∈ fields [e] ↔ bytes ∈ e := by
  rw [mem_fields_cons]
  constructor
  · rintro ⟨first, hf, rest, hr, rfl⟩
    cases hr
    rwa [append_nil]
  · intro h
    exact ⟨bytes, h, [], rfl, (append_nil bytes).symm⟩

instance : Mirror Move.ID Rust.ObjectID where
  image s := { bytes := s.bytes }
  reads s := field s.bytes (done _)

instance : Mirror Move.ID Rust.ID where
  image s := { bytes := image s }
  reads s bytes h := by
    rw [← append_nil bytes]
    exact (Mirror.reads s bytes h).bind (.pure _)

instance : Mirror Move.UID Rust.UID where
  image s := { id := image s.id }
  reads s := field s.id (done _)

/-- A table's id is stored inside its `UID`, and read as it is. -/
instance : Mirror Move.UID Rust.ObjectID where
  image s := image s.id
  reads s bytes h := Mirror.reads s.id bytes (mem_fields_singleton.1 h)

instance : Mirror Move.Balance Rust.Balance where
  image s := { value := s.value }
  reads s := field s.value (done _)

instance : Mirror Move.Table Rust.Table where
  image s := { id := image s.id, size := s.size }
  reads s := field s.id (field s.size (done _))

instance : Mirror Move.TableVec Rust.TableVec where
  image s := { contents := image s.contents }
  reads s := field s.contents (done _)

instance : Mirror Move.Bag Rust.Bag where
  image s := { id := image s.id, size := s.size }
  reads s := field s.id (field s.size (done _))

section Collections

variable {K K' V V' : Type} [ToBcs K] [FromBcs K'] [Mirror K K'] [ToBcs V] [FromBcs V']
  [Mirror V V']

instance : Mirror (Move.Entry K V) (Rust.Entry K' V') where
  image s := { key := image s.key, value := image s.value }
  reads s := field s.key (field s.value (done _))

instance : Mirror (Move.VecMap K V) (Rust.VecMap K' V') where
  image s := { contents := s.contents.map image }
  reads s := field s.contents (done _)

instance : Mirror (Move.VecSet K) (Rust.VecSet K') where
  image s := { contents := s.contents.map image }
  reads s := field s.contents (done _)

/-- The length of a vector with at most one element is the tag of an option. -/
instance : Mirror (Move.Option K) (Option K') where
  image s := s.vec.head?.map image
  reads s bytes h := by
    obtain ⟨vec, hvec⟩ := s
    obtain ⟨first, hfirst, rest, hrest, rfl⟩ := mem_fields_cons.1 (mem_fields_singleton.1 h)
    cases vec with
    | nil =>
      cases hfirst
      cases hrest
      exact (Reads.next 0).bind (.pure none)
    | cons a vec =>
      have hnil : vec = [] := by
        apply eq_nil_of_length_eq_zero
        simpa using hvec
      subst hnil
      cases hfirst
      exact (Reads.next 1).bind (Mirror.reads a rest (mem_fields_singleton.1 hrest)).map

end Collections

theorem isValidUTF8_singleton {b : UInt8} (h : b ≤ 127) : [b].toByteArray.IsValidUTF8 := by
  have hval : (Char.ofUInt8 b).val = b.toUInt32 := rfl
  have hle : (Char.ofUInt8 b).val ≤ 127 := by
    have hnat := UInt8.le_iff_toNat_le.1 h
    rw [hval, UInt32.le_iff_toNat_le]
    simpa using hnat
  refine ⟨[Char.ofUInt8 b], ?_⟩
  rw [List.utf8Encode, flatMap_singleton,
    String.utf8EncodeChar_eq_singleton (Char.utf8Size_eq_one_iff.2 hle), hval,
    UInt8.toUInt8_toUInt32]

theorem isValidUTF8_of_ascii (h : ∀ b ∈ bytes, b ≤ 127) : bytes.toByteArray.IsValidUTF8 := by
  induction bytes with
  | nil => exact ByteArray.isValidUTF8_empty
  | cons b bytes ih =>
    rw [← singleton_append, toByteArray_append]
    apply ByteArray.IsValidUTF8.append
    · exact isValidUTF8_singleton (h b mem_cons_self)
    · exact ih fun b' hb' => h b' (mem_cons_of_mem _ hb')

instance : Mirror Move.String String where
  image s := String.fromUTF8 s.bytes.toByteArray s.valid
  reads s _ h := reads_string s.valid (mem_fields_singleton.1 h)

instance : Mirror Move.Url String where
  image s := String.fromUTF8 s.url.bytes.toByteArray (isValidUTF8_of_ascii s.url.valid)
  reads _ _ h := reads_string _ (mem_fields_singleton.1 (mem_fields_singleton.1 h))

/-! ## The system state -/

instance : Mirror Move.StakingPool Rust.StakingPoolV1 where
  image s := ⟨image s.id, image s.activationEpoch, image s.deactivationEpoch, s.suiBalance,
    image s.rewardsPool, s.poolTokenBalance, image s.exchangeRates, s.pendingStake,
    s.pendingTotalOctWithdraw, s.pendingPoolTokenWithdraw, image s.extraFields⟩
  reads _ := by
    repeat apply field
    exact done _

instance : Mirror Move.ValidatorMetadata Rust.ValidatorMetadataV1 where
  image s := ⟨s.suiAddress, image s.protocolPubkeyBytes, image s.networkPubkeyBytes,
    image s.workerPubkeyBytes, image s.proofOfPossession, image s.name, image s.description,
    image s.imageUrl, image s.projectUrl, image s.netAddress, image s.p2pAddress,
    image s.primaryAddress, image s.workerAddress, image s.nextEpochProtocolPubkeyBytes,
    image s.nextEpochProofOfPossession, image s.nextEpochNetworkPubkeyBytes,
    image s.nextEpochWorkerPubkeyBytes, image s.nextEpochNetAddress, image s.nextEpochP2pAddress,
    image s.nextEpochPrimaryAddress, image s.nextEpochWorkerAddress, image s.extraFields⟩
  reads _ := by
    repeat apply field
    exact done _

instance : Mirror Move.Validator Rust.ValidatorV1 where
  image s := ⟨image s.metadata, s.revenueReceivingAddress, s.onlyValidatorStaking, s.votingPower,
    image s.operationCapId, s.gasPrice, image s.stakingPool, s.commissionRate, s.nextEpochStake,
    s.nextEpochGasPrice, s.nextEpochCommissionRate, image s.extraFields⟩
  reads _ := by
    repeat apply field
    exact done _

instance : Mirror Move.ValidatorSet Rust.ValidatorSetV1 where
  image s := ⟨s.totalStake, s.activeValidators.map image, image s.pendingActiveValidators,
    image s.pendingRemovals, image s.stakingPoolMappings, image s.inactiveValidators,
    image s.validatorCandidates, image s.atRiskValidators, s.onlyTrustedValidator,
    image s.trustedValidators, image s.extraFields⟩
  reads _ := by
    repeat apply field
    exact done _

instance : Mirror Move.SupperCommittee Rust.SuiSupperCommittee where
  image s := ⟨s.proposalList.map image, image s.extraFields⟩
  reads s := field s.proposalList <| field s.extraFields <| done _

instance : Mirror Move.StorageFund Rust.StorageFundV1 where
  image s := ⟨image s.totalObjectStorageRebates, image s.nonRefundableBalance⟩
  reads s := field s.totalObjectStorageRebates <| field s.nonRefundableBalance <| done _

instance : Mirror Move.StakeSubsidy Rust.StakeSubsidyV1 where
  image s := ⟨image s.balance, s.distributionCounter, s.currentDistributionAmount,
    s.stakeSubsidyPeriodLength, s.stakeSubsidyDecreaseRate, image s.extraFields⟩
  reads _ := by
    repeat apply field
    exact done _

instance : Mirror Move.SystemParametersV2 Rust.SystemParametersV2 where
  image s := ⟨s.epochDurationMs, s.stakeSubsidyStartEpoch, s.minValidatorCount, s.maxValidatorCount,
    s.minValidatorJoiningStake, s.validatorLowStakeThreshold, s.validatorVeryLowStakeThreshold,
    s.validatorLowStakeGracePeriod, image s.extraFields⟩
  reads _ := by
    repeat apply field
    exact done _

instance : Mirror Move.SuiSystemStateInnerV2 Rust.SuiSystemStateInnerV2 where
  image s := ⟨s.epoch, s.protocolVersion, s.systemStateVersion, image s.supperCommittee,
    image s.validators, image s.storageFund, image s.parameters, s.referenceGasPrice,
    image s.validatorReportRecords, image s.stakeSubsidy, s.safeMode,
    image s.safeModeStorageRewards, image s.safeModeComputationRewards, s.safeModeStorageRebates,
    s.safeModeNonRefundableStorageFee, s.epochStartTimestampMs, image s.extraFields⟩
  reads _ := by
    repeat apply field
    exact done _

/-! ## The receipt of a stake -/

variable (s : Move.StakedOct)

/-- The fields that the node's `StakedOct` has. -/
def stakedOctImage : Rust.StakedOct where
  id := image s.id
  poolId := image s.poolId
  stakeActivationEpoch := s.stakeActivationEpoch
  principal := image s.principal

theorem readsFields_stakedOct : ReadsFields (fromBcs : De Rust.StakedOct)
      [toBcs s.id, toBcs s.poolId, toBcs s.stakeActivationEpoch, toBcs s.principal]
      (stakedOctImage s) :=
  field s.id <| field s.poolId <| field s.stakeActivationEpoch <| field s.principal <| done _

/-- The last field that Move stores is the byte of `lock`. -/
theorem toBcs_stakedOct :
    ∃ known ∈ fields [toBcs s.id, toBcs s.poolId, toBcs s.stakeActivationEpoch, toBcs s.principal],
      toBcs s = some (known ++ [if s.lock then 1 else 0]) := by
  refine ⟨_, rfl, ?_⟩
  change fields [toBcs s.id, toBcs s.poolId, toBcs s.stakeActivationEpoch, toBcs s.principal,
    toBcs s.lock] = _
  simp only [fields, toBcs, Option.pure_def, Option.bind_eq_bind, Option.bind_some,
    append_nil, append_assoc]

theorem fromBytes_stakedOct {s : Move.StakedOct} (h : toBcs s = some bytes) :
    (fromBytes bytes : Except Error Rust.StakedOct) = .error .remainingInput := by
  obtain ⟨known, hk, hs⟩ := toBcs_stakedOct s
  rw [hs] at h
  cases h
  exact fromBytes_trailing (readsFields_stakedOct s known hk) (by simp)

/-- **No receipt can be read.** The conversion that every reader of stakes goes through fails for
each `StakedOct` object. -/
theorem tryFrom_stored {s : Move.StakedOct} (h : toBcs s = some bytes) :
    Rust.StakedOct.tryFrom (.move .stakedOct bytes) =
      .error (.unableToDeserialize .remainingInput) := by
  rw [Rust.StakedOct.tryFrom, fromBytes_stakedOct h]
  rfl

/-! ## What the node reads back -/

/-- The values that the node has mirrors for. -/
inductive Value
  | stakedOct (s : Move.StakedOct)
  | systemState (s : Move.SuiSystemStateInnerV2)

namespace Value

/-- What Move stores. -/
def stored : Value → Option Bytes
  | .stakedOct s => toBcs s
  | .systemState s => toBcs s

/-- The node reads the value from these bytes, and every field is the stored one. -/
def ReadBack : Value → Bytes → Prop
  | .stakedOct s, bytes => fromBytes bytes = .ok (stakedOctImage s)
  | .systemState s, bytes => fromBytes bytes = .ok (image s : Rust.SuiSystemStateInnerV2)

/-- **The mirror.** What Move stores for a value is read back by the node, field for field, exactly
if the value is a system state. -/
theorem read_back_iff (v : Value) {bytes : Bytes} (h : v.stored = some bytes) :
    v.ReadBack bytes ↔ ∃ s, v = .systemState s := by
  cases v with
  | stakedOct s =>
    constructor
    · intro hr
      rw [ReadBack, fromBytes_stakedOct h] at hr
      cases hr
    · rintro ⟨_, hv⟩
      cases hv
  | systemState s =>
    constructor
    · intro _
      exact ⟨s, rfl⟩
    · intro _
      exact fromBytes_toBcs h

end Value

/-! ## Small values -/

namespace Move

def zeroAddress : Address := List.Vector.replicate 32 0

def zeroBag : Bag := ⟨⟨⟨zeroAddress⟩⟩, 0⟩

def zeroTable : Table := ⟨⟨⟨zeroAddress⟩⟩, 0⟩

/-- The text `ok`. -/
def okString : String := ⟨[111, 107], isValidUTF8_of_ascii (by simp)⟩

def zeroValidator : Validator :=
  ⟨⟨zeroAddress, [1, 2], [3], [4], [], okString, ⟨[], isValidUTF8_of_ascii (by simp)⟩, ⟨⟨[],
    by simp⟩⟩, ⟨⟨[111, 107], by simp⟩⟩, okString, okString, okString, okString, ⟨[[5, 6]], le_rfl⟩,
    ⟨[[]], le_rfl⟩, ⟨[], zero_le_one⟩, ⟨[], zero_le_one⟩, ⟨[okString], le_rfl⟩, ⟨[], zero_le_one⟩,
    ⟨[], zero_le_one⟩, ⟨[], zero_le_one⟩, zeroBag⟩, zeroAddress, true, 10000, ⟨zeroAddress⟩, 1000,
    ⟨⟨⟨zeroAddress⟩⟩, ⟨[0], le_rfl⟩, ⟨[], zero_le_one⟩, 1000000000, ⟨0⟩, 1000000000, zeroTable, 0,
    0, 0, zeroBag⟩, 200, 1000000000, 1000, 200, zeroBag⟩

/-- The system state of a chain with one validator. -/
def zeroState : SuiSystemStateInnerV2 :=
  ⟨1, 1, 2, ⟨[⟨zeroAddress⟩], zeroBag⟩, ⟨1000000000, [zeroValidator], ⟨zeroTable⟩, [], zeroTable,
    zeroTable, zeroTable, ⟨[⟨zeroAddress, 3⟩]⟩, true, ⟨[zeroAddress]⟩, zeroBag⟩, ⟨⟨0⟩, ⟨0⟩⟩,
    ⟨86400000, 0, 4, 150, 0, 0, 0, 7, zeroBag⟩, 1000, ⟨[⟨zeroAddress, ⟨[zeroAddress]⟩⟩]⟩, ⟨⟨0⟩, 0,
    0, 10, 1000, zeroBag⟩, false, ⟨0⟩, ⟨0⟩, 0, 0, 1700000000000, zeroBag⟩

def zeroStakedOct : StakedOct := ⟨⟨⟨zeroAddress⟩⟩, ⟨zeroAddress⟩, 1, ⟨1000000000⟩, false⟩

end Move

namespace Value

theorem read_back_iff_zeroState : ∃ bytes, (systemState Move.zeroState).stored = some bytes ∧
      fromBytes bytes = .ok (image Move.zeroState : Rust.SuiSystemStateInnerV2) := by
  obtain ⟨bytes, h⟩ := Option.isSome_iff_exists.1
    (by decide +kernel : (systemState Move.zeroState).stored.isSome = true)
  exact ⟨bytes, h, (read_back_iff (systemState Move.zeroState) h).2 ⟨_, rfl⟩⟩

/-- **A receipt that is not read.** One coin, staked and not locked. -/
theorem staked_oct_not_read_back : ∃ bytes, (stakedOct Move.zeroStakedOct).stored = some bytes ∧
      ¬ (stakedOct Move.zeroStakedOct).ReadBack bytes ∧
      (fromBytes bytes : Except Error Rust.StakedOct) = .error .remainingInput := by
  obtain ⟨known, _, h⟩ := toBcs_stakedOct Move.zeroStakedOct
  have hr := fromBytes_stakedOct h
  refine ⟨_, h, ?_, hr⟩
  rw [ReadBack, hr]
  intro heq
  cases heq

end Value

end OneChain.Codec
