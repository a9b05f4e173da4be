import OneChain.Lib.Ordered
import OneChain.Lib.Tally
import OneChain.Lib.Transition

/-!
# Ignored peers of the randomness network

`update_epoch` and `maybe_ignore_byzantine_peer` of `RandomnessEventLoop`, with the fields that say
which peers are ignored; no other message writes them. A new epoch allows all peers again, but the
count of ignored shares goes on from the old one.

* `RandomnessEventLoop.ignored_weight_exact` — the count is right until an epoch begins with peers
  ignored.
* `RandomnessEventLoop.count_outlives_epoch` — after that it is not.
-/

namespace OneChain.Network

open Lib List OrdMap Machine

/-- The shares of each party, and how many there are. -/
structure DkgOutput where
  shareIdsOf : ℕ → Option (List ℕ)
  totalWeight : ℕ

structure RandomnessEventLoop where
  epoch : ℕ
  dkgOutput : Option DkgOutput
  peerShareIds : Option (OrdMap ℕ (List ℕ))
  allowedPeersSet : OrdSet ℕ
  blockedShareIdCount : ℕ

inductive RandomnessMessage
  /-- `authorityInfo` has the peer and the party of each authority. -/
  | updateEpoch (newEpoch : ℕ) (authorityInfo : List (ℕ × ℕ)) (dkgOutput : DkgOutput)
  | maybeIgnoreByzantinePeer (epoch peerId : ℕ)
  | other

inductive LoopPanic
  | epochNotNew | invalidParty

namespace RandomnessEventLoop

def new : RandomnessEventLoop := ⟨0, none, none, .empty, 0⟩

section Steps

variable (s : RandomnessEventLoop) (maxIgnoredShares : ℕ → ℕ)

def updateEpoch (newEpoch : ℕ) (authorityInfo : List (ℕ × ℕ)) (dkgOutput : DkgOutput) :
    Except LoopPanic RandomnessEventLoop := do
  check (s.dkgOutput.isNone ∨ s.epoch < newEpoch) .epochNotNew
  let peerShareIds ← authorityInfo.foldlM (fun acc info => do
    let ids ← require (dkgOutput.shareIdsOf info.2) .invalidParty
    pure (acc.insert info.1 ids)) .empty
  pure { s with
    epoch := newEpoch, dkgOutput := some dkgOutput, peerShareIds := some peerShareIds
    allowedPeersSet := authorityInfo.foldl (fun peers info => peers.insert info.1 ()) .empty }

/-- `maxIgnoredShares` is the configured share of a total weight. -/
def maybeIgnoreByzantinePeer (epoch peerId : ℕ) : RandomnessEventLoop :=
  if epoch ≠ s.epoch ∨ peerId ∉ s.allowedPeersSet then s
  else match s.dkgOutput, s.peerShareIds.bind (·.get? peerId) with
    | some dkgOutput, some peerShares =>
      if maxIgnoredShares dkgOutput.totalWeight < s.blockedShareIdCount + peerShares.length then s
      else { s with
        blockedShareIdCount := s.blockedShareIdCount + peerShares.length
        allowedPeersSet := s.allowedPeersSet.erase peerId }
    | _, _ => s

def machine : Machine RandomnessEventLoop RandomnessMessage LoopPanic where
  init s := s = new
  step s
    | .updateEpoch newEpoch info dkgOutput => s.updateEpoch newEpoch info dkgOutput
    | .maybeIgnoreByzantinePeer epoch peerId =>
      .ok (s.maybeIgnoreByzantinePeer maxIgnoredShares epoch peerId)
    | .other => .ok s

/-- The shares of the peers that are not allowed. -/
def sharesOutside (allowed : OrdSet ℕ) (ids : OrdMap ℕ (List ℕ)) : ℕ :=
  tally (fun e => if e.1 ∈ allowed then 0 else e.2.length) ids.entries

def ignoredShares : ℕ := (s.peerShareIds.map (sharesOutside s.allowedPeersSet)).getD 0

/-- An epoch begins only while no peer is ignored. -/
def Quiet (m : RandomnessMessage) : Prop :=
  s.blockedShareIdCount = 0 ∨ ¬ m matches .updateEpoch ..
  deriving Decidable

end Steps

variable {s s' : RandomnessEventLoop} {maxIgnoredShares : ℕ → ℕ}

theorem ignoredShares_updateEpoch {newEpoch : ℕ} {info : List (ℕ × ℕ)} {dkg : DkgOutput}
    (h : s.updateEpoch newEpoch info dkg = .ok s') :
    s'.ignoredShares = 0 ∧ s'.blockedShareIdCount = s.blockedShareIdCount := by
  simp only [updateEpoch, ok_iff] at h
  obtain ⟨_, ids, hids, rfl⟩ := h
  have hkeys : ∀ k ∈ ids, ∃ i ∈ info, i.1 = k := by
    refine foldlM_induction (P := fun ids => ∀ k ∈ ids, ∃ i ∈ info, i.1 = k)
      (fun acc acc' i hi hacc hst k hk => ?_) (fun k hk => by cases hk) hids
    simp only [ok_iff] at hst
    obtain ⟨shares, _, rfl⟩ := hst
    rcases mem_insert.1 hk with rfl | hk
    · exact ⟨i, hi, rfl⟩
    · exact hacc k hk
  refine ⟨tally_eq_zero fun e he => if_pos (mem_foldl_insert.2 (.inl ?_)), rfl⟩
  exact hkeys e.1 (mem_iff.2 ⟨e.2, mem_entries.1 he⟩)

theorem sharesOutside_erase {allowed : OrdSet ℕ} {ids : OrdMap ℕ (List ℕ)} {peerId : ℕ}
    {shares : List ℕ} (hp : peerId ∈ allowed) (hget : ids.get? peerId = some shares) :
    sharesOutside (allowed.erase peerId) ids = sharesOutside allowed ids + shares.length := by
  have hperm := entries_perm_erase hget
  have hgone : peerId ∉ allowed.erase peerId := by
    rw [notMem_iff, get?_erase, if_pos rfl]
  rw [sharesOutside, sharesOutside, tally_perm hperm, tally_perm hperm, tally_cons, tally_cons,
    if_pos hp, if_neg hgone, Nat.zero_add, Nat.add_comm]
  congr 1
  refine tally_congr fun e he => ?_
  have hne := (get?_erase_eq_some.1 (mem_entries.1 he)).1
  simp only [mem_def, get?_erase, if_neg hne]

theorem maybeIgnore_counts (epoch peerId : ℕ) (h : s.blockedShareIdCount = s.ignoredShares) :
    (s.maybeIgnoreByzantinePeer maxIgnoredShares epoch peerId).blockedShareIdCount =
      (s.maybeIgnoreByzantinePeer maxIgnoredShares epoch peerId).ignoredShares := by
  unfold maybeIgnoreByzantinePeer
  split
  · exact h
  · rename_i hc
    split
    · rename_i dkg shares _ hs
      split
      · exact h
      · obtain ⟨ids, hids, hget⟩ := Option.bind_eq_some_iff.1 hs
        rw [ignoredShares, hids, Option.map_some, Option.getD_some] at h
        rw [ignoredShares, hids, Option.map_some, Option.getD_some,
          sharesOutside_erase (by simpa using (not_or.1 hc).2) hget, h]
    · exact h

/-- **The ignored weight is counted** while no epoch begins with peers ignored. A peer is refused
only if it would exceed the limit together with those that are ignored. -/
theorem ignored_weight_exact (h : (machine maxIgnoredShares).Reach Quiet s) :
    s.blockedShareIdCount = s.ignoredShares ∧
    ∀ dkg ids peerId shares, s.dkgOutput = some dkg → s.peerShareIds = some ids →
      ids.get? peerId = some shares → peerId ∈ s.allowedPeersSet →
      peerId ∈ (s.maybeIgnoreByzantinePeer maxIgnoredShares s.epoch peerId).allowedPeersSet →
      maxIgnoredShares dkg.totalWeight < s.ignoredShares + shares.length := by
  have hcount : s.blockedShareIdCount = s.ignoredShares := by
    refine h.invariant (P := fun s => s.blockedShareIdCount = s.ignoredShares)
      (fun s hs => hs ▸ rfl) fun s m s' ih hq hs => ?_
    cases m with
    | updateEpoch newEpoch info dkg =>
      obtain ⟨hz, hb⟩ := ignoredShares_updateEpoch hs
      rw [hz, hb, hq.resolve_right (by simp)]
    | maybeIgnoreByzantinePeer epoch peerId =>
      cases hs
      exact maybeIgnore_counts epoch peerId ih
    | other =>
      cases hs
      exact ih
  refine ⟨hcount, fun dkg ids peerId shares hd hi hg hp hkept => ?_⟩
  by_contra hle
  rw [maybeIgnoreByzantinePeer, if_neg (by simp [hp])] at hkept
  simp [hd, hi, hg, hcount, hle, mem_def, get?_erase] at hkept

/-- One peer with one share. -/
def lone : DkgOutput := ⟨fun _ => some [0], 1⟩

theorem ignored_weight_exact_lone : ∃ s, (machine id).Reach Quiet s ∧
    s.blockedShareIdCount = 1 ∧ s.ignoredShares = 1 :=
  exists_reach_imp [.updateEpoch 1 [(7, 0)] lone, .maybeIgnoreByzantinePeer 1 7]
    (fun s => s.blockedShareIdCount = 1) (init_ok rfl) (by decide +kernel)
    fun s hs hone => ⟨hone, (ignored_weight_exact hs).1 ▸ hone⟩

/-- In the second epoch no peer is ignored, and the one that is detected is refused. -/
theorem count_outlives_epoch : ∃ s, (machine id).Reach Machine.free s ∧
    s.blockedShareIdCount = 1 ∧ s.ignoredShares = 0 ∧
    7 ∈ (s.maybeIgnoreByzantinePeer id s.epoch 7).allowedPeersSet :=
  exists_reach
    [.updateEpoch 1 [(7, 0)] lone, .maybeIgnoreByzantinePeer 1 7, .updateEpoch 2 [(7, 0)] lone] _
    (init_ok rfl) (by decide +kernel)

end RandomnessEventLoop

end OneChain.Network
