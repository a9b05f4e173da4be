import OneChain.Consensus.CommitRule

/-!
# Agreement of the commit rule

`UniversalCommitter::try_decide` decides slots from the highest down, each from the statuses of the
later ones (`Decides`). Two validators that look at the same slots cannot come to different
decisions (`Decided.agree`), and one that sees more decides at least what the other decides
(`Decided.mono`): the direct rules exclude each other and survive more blocks, and an indirect
decision depends on its anchor only, which the two find at the same slot.

* `UniversalCommitter.decided_sequences_agree` — the decided sequences of two validators are
  comparable, and that of the one who sees more is the longer one.
-/

namespace OneChain.Consensus

open Lib BlockUniverse List

variable {n : ℕ} {C : Committee n} {U : BlockUniverse C} {d : DagState C} {first : ℕ}

/-! ## One slot -/

namespace UniversalCommitter

open BaseCommitter

/-- The statuses of leaders far enough above the slot to be anchors. -/
def anchors (slot : Slot n) (later : List (LeaderStatus n)) : List (LeaderStatus n) :=
  later.filter fun x => slot.round + 3 ≤ x.round

/-- The status of a slot, given those of the later slots. -/
inductive Decides (U : BlockUniverse C) (V : Set (Block n)) (slot : Slot n)
    (later : List (LeaderStatus n)) : LeaderStatus n → Prop
  | direct {status : LeaderStatus n} : Direct U V slot status → status.isDecided = true →
      Decides U V slot later status
  | indirect {anchor : Block n} {status : LeaderStatus n} :
      Direct U V slot (.undecided slot) → firstAnchor (anchors slot later) = some anchor →
      FromAnchor U V slot anchor status → Decides U V slot later status
  | undecided : Direct U V slot (.undecided slot) → firstAnchor (anchors slot later) = none →
      Decides U V slot later (.undecided slot)

variable {l' later rest : List (LeaderStatus n)} {anchor l : Block n} {c : BaseCommitter}
  {last slot : Slot n} {u : UniversalCommitter n} {s s' : LeaderStatus n}
  {schedule : LeaderSchedule n} {highest highest' : ℕ}

theorem anchors_cons (s : LeaderStatus n) (later : List (LeaderStatus n)) :
    anchors slot (s :: later) =
      if slot.round + 3 ≤ s.round then s :: anchors slot later else anchors slot later := by
  simp [anchors, filter_cons]

theorem firstAnchor_mem (h : firstAnchor later = some anchor) : .commit anchor ∈ later := by
  induction later with
  | nil => cases h
  | cons s later ih =>
    cases s with
    | commit b =>
      cases h
      exact mem_cons_self
    | skip slot => exact mem_cons_of_mem _ (ih h)
    | undecided slot => cases h

theorem decideSlot_ok (hv : View U d first) (hf : first ≤ slot.round)
    (hla : d.lastCommitRound ≤ slot.round) (hw : c.waveLength = 3)
    (hr : c.decisionRound (c.waveNumber slot.round) = slot.round + 2)
    {later : List (LeaderStatus n × Decision)}
    (hl : ∀ b, .commit b ∈ later.map Prod.fst → d.Holds b) :
    ∃ leader, decideSlot d c slot later = .ok leader ∧
      Decides U d.held slot (later.map Prod.fst) leader.1 := by
  obtain ⟨status, hs, hdir⟩ := tryDirectDecide_ok hv hf hla hr
  rw [decideSlot, hs, ok_bind]
  by_cases hd : status.isDecided = true
  · rw [if_pos hd]
    exact ⟨(status, .direct), rfl, .direct hdir hd⟩
  · have heq : status = .undecided slot := by
      cases hdir with
      | skip _ => exact absurd rfl hd
      | commit _ _ _ => exact absurd rfl hd
      | undecided _ _ => rfl
    subst heq
    rw [if_neg hd, tryIndirectDecide, hw]
    cases ha : firstAnchor (anchors slot (later.map Prod.fst)) with
    | some anchor =>
      have hmem := (mem_filter.1 (firstAnchor_mem ha)).1
      obtain ⟨status, hs', hfr⟩ := decideLeaderFromAnchor_ok hv hf hr (hl anchor hmem)
      refine ⟨(status, .indirect), ?_, .indirect hdir ha hfr⟩
      rw [anchors] at ha
      simp only [ha, hs', ok_bind, pure_ok]
    | none =>
      refine ⟨(.undecided slot, .indirect), ?_, .undecided hdir ha⟩
      rw [anchors] at ha
      simp only [ha, ok_bind, pure_ok]

/-! ## All slots -/

/-- Slots in ascending order with their statuses. -/
inductive Decided (U : BlockUniverse C) (V : Set (Block n)) :
    List (Slot n) → List (LeaderStatus n) → Prop
  | nil : Decided U V [] []
  | cons {slot : Slot n} {slots : List (Slot n)} {status : LeaderStatus n}
      {later : List (LeaderStatus n)} : Decided U V slots later → Decides U V slot later status →
      Decided U V (slot :: slots) (status :: later)

variable {V V' : Set (Block n)} {slots slots' : List (Slot n)}

/-- A status is about its slot, and a block that is committed has a certificate. -/
theorem Decides.shape (h : Decides U V slot later s) : s = .undecided slot ∨ s = .skip slot ∨
      ∃ l ∈ V, l.slot = slot ∧ (∃ c, U.Certifies c l) ∧ s = .commit l := by
  cases h with
  | direct hdir _ =>
    cases hdir with
    | undecided _ _ => exact .inl rfl
    | skip _ => exact .inr (.inl rfl)
    | commit hl hs hsupp =>
      obtain ⟨c, _, hc⟩ := exists_certifies_of_supported hsupp
      exact .inr (.inr ⟨_, hl, hs, ⟨c, hc⟩, rfl⟩)
  | indirect _ _ hf =>
    cases hf with
    | skip _ => exact .inr (.inl rfl)
    | commit hl hs hcert =>
      obtain ⟨c, _, _, hc⟩ := hcert
      exact .inr (.inr ⟨_, hl, hs, ⟨c, hc⟩, rfl⟩)
  | undecided _ _ => exact .inl rfl

theorem Decides.round_eq (h : Decides U V slot later s) : s.round = slot.round := by
  rcases h.shape with rfl | rfl | ⟨l, _, hs, _, rfl⟩
  · rfl
  · rfl
  · exact congrArg Slot.round hs

theorem Decides.mem_of_commit (h : Decides U V slot later (.commit l)) : l ∈ V := by
  rcases h.shape with hs | hs | ⟨_, hl, _, _, hs⟩
  · cases hs
  · cases hs
  · cases hs
    exact hl

theorem Decided.mem_of_commit {statuses : List (LeaderStatus n)} (h : Decided U V slots statuses)
    (hl : .commit l ∈ statuses) : l ∈ V := by
  induction h with
  | nil => cases hl
  | cons _ hd ih =>
    rcases mem_cons.1 hl with rfl | hl
    · exact hd.mem_of_commit
    · exact ih hl

/-- A relation between the statuses of one slot that follows from that of the later slots holds of
all slots, by induction from the highest one. -/
theorem Decided.related {R : LeaderStatus n → LeaderStatus n → Prop}
    {statuses statuses' : List (LeaderStatus n)} (hi : slots <+: slots')
    (h : Decided U V slots statuses) (h' : Decided U V' slots' statuses')
    (hR : ∀ slot ∈ slots, ∀ later common rest s s', Forall₂ R later common →
      (∀ b, .commit b ∈ later → b ∈ V) → (∀ b, .commit b ∈ common ++ rest → b ∈ V') →
      Decides U V slot later s → Decides U V' slot (common ++ rest) s' → R s s') :
    ∃ common rest, statuses' = common ++ rest ∧ Forall₂ R statuses common := by
  obtain ⟨more, rfl⟩ := hi
  induction slots generalizing statuses statuses' with
  | nil =>
    cases h
    exact ⟨[], statuses', rfl, .nil⟩
  | cons slot slots ih =>
    cases h with
    | @cons _ _ s later hl hs =>
      cases h' with
      | @cons _ _ s' later' hl' hs' =>
        obtain ⟨common, rest, rfl, hrel⟩ := ih hl (fun t ht => hR t (mem_cons_of_mem _ ht)) hl'
        refine ⟨s' :: common, rest, rfl, .cons ?_ hrel⟩
        exact hR slot mem_cons_self _ _ _ _ _ hrel (fun b hb => hl.mem_of_commit hb)
          (fun b hb => hl'.mem_of_commit hb) hs hs'

/-- The loop decides the elected slots, from the highest to the one before the last decided. -/
theorem decideLoop_ok (hv : View U d first) (last : Slot n) {positions : List (ℕ × BaseCommitter)}
    (hpos : ∀ p ∈ positions, ∀ slot, p.2.electLeader u.schedule p.1 = some slot →
      first ≤ slot.round ∧ d.lastCommitRound ≤ slot.round ∧ p.2.waveLength = 3 ∧
        p.2.decisionRound (p.2.waveNumber slot.round) = slot.round + 2)
    (leaders : List (LeaderStatus n × Decision))
    (hlead : Decided U d.held slots (leaders.map Prod.fst)) :
    ∃ leaders', u.decideLoop d last positions leaders = .ok leaders' ∧
      Decided U d.held (((positions.filterMap fun p => p.2.electLeader u.schedule p.1).takeWhile
        (· ≠ last)).reverse ++ slots) (leaders'.map Prod.fst) := by
  induction positions generalizing slots leaders with
  | nil => exact ⟨leaders, rfl, hlead⟩
  | cons p positions ih =>
    obtain ⟨round, c⟩ := p
    have hrest : ∀ p ∈ positions, _ := fun p hp => hpos p (mem_cons_of_mem _ hp)
    rw [decideLoop]
    cases helect : c.electLeader u.schedule round with
    | none =>
      rw [filterMap_cons_none (by simpa using helect)]
      exact ih hrest leaders hlead
    | some slot =>
      rw [filterMap_cons_some (by simpa using helect)]
      by_cases hslot : slot = last
      · refine ⟨leaders, by simp only [if_pos hslot], ?_⟩
        rw [takeWhile_cons_of_neg (by simpa using hslot)]
        exact hlead
      · obtain ⟨hfirst, hlast, hwave, hround⟩ := hpos _ mem_cons_self slot helect
        obtain ⟨leader, hleader, hdecides⟩ := decideSlot_ok hv hfirst hlast hwave hround
          (fun b hb => hlead.mem_of_commit hb)
        obtain ⟨leaders', hloop, hdecided⟩ := ih hrest (leader :: leaders) (.cons hlead hdecides)
        refine ⟨leaders', ?_, ?_⟩
        · simp only [if_neg hslot, hleader]
          exact hloop
        · rw [takeWhile_cons_of_pos (by simpa using hslot), reverse_cons, append_assoc]
          exact hdecided

/-! ## Agreement -/

/-- Two statuses of one slot that do not contradict each other. -/
def Agree (s s' : LeaderStatus n) : Prop :=
  s.round = s'.round ∧ (s.isDecided = true → s'.isDecided = true → s = s')

theorem firstAnchor_agree {l more : List (LeaderStatus n)} (h : Forall₂ Agree l l')
    {anchor' : Block n} (ha : firstAnchor (anchors slot l) = some anchor)
    (ha' : firstAnchor (anchors slot (l' ++ more)) = some anchor') : anchor = anchor' := by
  induction h with
  | nil => cases ha
  | @cons s s' l l' hs _ ih =>
    rw [anchors_cons] at ha
    rw [cons_append, anchors_cons, ← hs.1] at ha'
    by_cases hfar : slot.round + 3 ≤ s.round
    · rw [if_pos hfar] at ha ha'
      have hag := hs.2
      cases s <;> cases s' <;> simp_all [firstAnchor, LeaderStatus.isDecided]
    · rw [if_neg hfar] at ha ha'
      exact ih ha ha'

/-- A block certified by an anchor is in every view that holds the anchor. -/
theorem mem_of_certifiedBy (hv : View U d first) (hanchor : d.Holds anchor) (hl : l ∈ U.blocks)
    (hfirst : first ≤ l.round) (h : U.CertifiedBy anchor l) : d.Holds l := by
  obtain ⟨c, hc, hlink, hround, hquorum⟩ := h
  have hcholds := hv.holds_linked hanchor hc hlink (by omega)
  obtain ⟨v, ⟨hvU, hmem, hvround, hvote⟩, _⟩ := U.exists_common hquorum hquorum
    (fun b hb => ⟨hb.1, hb.2.2.1⟩) (fun b hb => ⟨hb.1, hb.2.2.1⟩)
  exact hv.holds_ancestor (hv.holds_ancestor hcholds hvU hmem (by omega)) hl hvote hfirst

/-- A block that the anchor certifies is not passed over. -/
theorem not_certifiedBy_of_skip (hv : View U d first) (ha : d.Holds anchor)
    (hf : first ≤ slot.round) (hl : l ∈ U.blocks) (hs : l.slot = slot)
    (hn : ∀ l ∈ d.held, l.slot = slot → ¬ U.CertifiedBy anchor l) : ¬ U.CertifiedBy anchor l := by
  intro hc
  have hr : l.round = slot.round := congrArg Slot.round hs
  exact hn l (mem_of_certifiedBy hv ha hl (by omega) hc) hs hc

theorem anchor_far (h : firstAnchor (anchors slot later) = some anchor) :
    .commit anchor ∈ later ∧ slot.round + 3 ≤ anchor.round := by
  obtain ⟨hmem, hfar⟩ := mem_filter.1 (firstAnchor_mem h)
  exact ⟨hmem, of_decide_eq_true hfar⟩

/-- **A slot is not committed by one validator and skipped by another.** -/
theorem not_skip_of_commit {d' : DagState C} {later' : List (LeaderStatus n)}
    (hv : View U d first) (hv' : View U d' first) (hfirst : first ≤ slot.round)
    (hsame : ∀ a a', firstAnchor (anchors slot later) = some a →
      firstAnchor (anchors slot later') = some a' → a = a')
    (hlater' : ∀ b, .commit b ∈ later' → d'.Holds b) (hl : l ∈ U.blocks) (hslot : l.slot = slot)
    (hcert : ∃ c, U.Certifies c l) (h : Decides U d.held slot later (.commit l)) :
    ¬ Decides U d'.held slot later' (.skip slot) := by
  intro h'
  cases h' with
  | direct hdir' _ =>
    cases hdir' with
    | skip hblamed =>
      obtain ⟨c, hc⟩ := hcert
      exact not_certifies_of_blamed hv'.subset (hslot ▸ hblamed) hc
  | indirect _ hanchor' hfrom' =>
    cases hfrom' with
    | skip hnone =>
      obtain ⟨hmem, hfar⟩ := anchor_far hanchor'
      refine not_certifiedBy_of_skip hv' (hlater' _ hmem) hfirst hl hslot hnone ?_
      cases h with
      | direct hdir _ =>
        cases hdir with
        | commit _ _ hsupp =>
          have hround : l.round = slot.round := congrArg Slot.round hslot
          exact certifiedBy_of_supported hv.subset hv'.subset hv'.closedFrom (by omega) hsupp
            (hlater' _ hmem) (by omega)
      | indirect _ hanchor hfrom =>
        cases hfrom with
        | commit _ _ hcertified =>
          obtain rfl := hsame _ _ hanchor hanchor'
          exact hcertified

section TwoViews

variable {d' : DagState C} (hv : View U d first) (hv' : View U d' first)

include hv hv'

variable {statuses statuses' : List (LeaderStatus n)}

theorem decides_agree (hfirst : first ≤ slot.round) {later later' : List (LeaderStatus n)}
    (hagree : Forall₂ Agree later later') (hlater : ∀ b, .commit b ∈ later → d.Holds b)
    (hlater' : ∀ b, .commit b ∈ later' ++ rest → d'.Holds b) {s' : LeaderStatus n}
    (h : Decides U d.held slot later s) (h' : Decides U d'.held slot (later' ++ rest) s') :
    Agree s s' := by
  refine ⟨h.round_eq.trans h'.round_eq.symm, fun hs hs' => ?_⟩
  have hsame : ∀ a a', firstAnchor (anchors slot later) = some a →
      firstAnchor (anchors slot (later' ++ rest)) = some a' → a = a' :=
    fun _ _ => firstAnchor_agree hagree
  rcases h.shape with rfl | rfl | ⟨l, hl, hslot, hc, rfl⟩
  · cases hs
  · rcases h'.shape with rfl | rfl | ⟨l', hl', hslot', hc', rfl⟩
    · cases hs'
    · rfl
    · exact (not_skip_of_commit hv' hv hfirst (fun a' a ha' ha => (hsame a a' ha ha').symm) hlater
        (hv'.subset hl') hslot' hc' h' h).elim
  · rcases h'.shape with rfl | rfl | ⟨l', hl', hslot', hc', rfl⟩
    · cases hs'
    · exact (not_skip_of_commit hv hv' hfirst hsame hlater' (hv.subset hl) hslot hc h h').elim
    · obtain ⟨c, hc⟩ := hc
      obtain ⟨c', hc'⟩ := hc'
      rw [certifies_unique (hv.subset hl) (hv'.subset hl') (hslot.trans hslot'.symm) hc hc']

/-- **Two validators do not contradict each other.** -/
theorem Decided.agree (hsl : ∀ slot ∈ slots, first ≤ slot.round) (hi : slots <+: slots')
    (h : Decided U d.held slots statuses) (h' : Decided U d'.held slots' statuses') :
    ∃ common rest, statuses' = common ++ rest ∧ Forall₂ Agree statuses common :=
  h.related hi h' fun slot hst _ _ _ _ _ ha hl hl' hs hs' =>
    decides_agree hv hv' (hsl slot hst) ha hl hl' hs hs'

/-! ## More blocks -/

/-- What is decided stays decided, in the same way. -/
def Extends (s s' : LeaderStatus n) : Prop := s.round = s'.round ∧ (s.isDecided = true → s = s')

omit hv hv' in
theorem firstAnchor_extends {l l' : List (LeaderStatus n)} (h : Forall₂ Extends l l')
    {anchor : Block n} (ha : firstAnchor (anchors slot l) = some anchor) :
    firstAnchor (anchors slot (l' ++ rest)) = some anchor := by
  induction h with
  | nil => cases ha
  | @cons s s' l l' hs _ ih =>
    rw [anchors_cons] at ha
    rw [cons_append, anchors_cons, ← hs.1]
    by_cases hfar : slot.round + 3 ≤ s.round
    · rw [if_pos hfar] at ha ⊢
      cases s with
      | commit b =>
        obtain rfl := hs.2 rfl
        exact ha
      | skip slot =>
        obtain rfl := hs.2 rfl
        exact ih ha
      | undecided slot => cases ha
    · rw [if_neg hfar] at ha ⊢
      exact ih ha

omit hv hv' in
theorem direct_mono (hsub : d.held ⊆ d'.held) (h : Direct U d.held slot s)
    (hs : s.isDecided = true) : ¬ Direct U d'.held slot (.undecided slot) := by
  intro h'
  obtain ⟨hb', hn⟩ : ¬ Blamed C d'.held slot ∧
      ∀ l ∈ d'.held, l.slot = slot → ¬ U.Supported d'.held l := by
    cases h' with
    | undecided hb' hn => exact ⟨hb', hn⟩
  cases h with
  | undecided _ _ => cases hs
  | skip hbl => exact hb' (hbl.mono fun b hb => ⟨hsub hb.1, hb.2⟩)
  | commit hl hsl hsu =>
    exact hn _ (hsub hl) hsl (hsu.mono fun b hb => ⟨hsub hb.1, hb.2⟩)

/-- **More blocks decide more slots, the decided ones in the same way.** -/
theorem Decided.mono (hsub : d.held ⊆ d'.held) (hslots : ∀ slot ∈ slots, first ≤ slot.round)
    (hinit : slots <+: slots') (h : Decided U d.held slots statuses)
    (h' : Decided U d'.held slots' statuses') :
    ∃ common rest, statuses' = common ++ rest ∧ Forall₂ Extends statuses common := by
  refine h.related hinit h' ?_
  intro slot hslot later common rest s s' hext hlater hlater' hs hs'
  have hagree := decides_agree hv hv' (hslots slot hslot)
    (hext.imp fun _ _ hst => ⟨hst.1, fun hdec _ => hst.2 hdec⟩) hlater hlater' hs hs'
  refine ⟨hagree.1, fun hdec => hagree.2 hdec ?_⟩
  cases hs' with
  | direct _ hdec' => exact hdec'
  | indirect _ _ hfrom =>
    cases hfrom with
    | commit _ _ _ => rfl
    | skip _ => rfl
  | undecided hund hnone =>
    cases hs with
    | direct hdir _ => exact absurd hund (direct_mono hsub hdir hdec)
    | indirect _ hanchor _ => simp [firstAnchor_extends hext hanchor] at hnone
    | undecided _ _ => cases hdec

end TwoViews

/-! ## The decided sequence -/

/-- The decision without the remark how it was reached. -/
def outcome : DecidedLeader n → LeaderStatus n
  | .commit block _ => .commit block
  | .skip slot => .skip slot

/-- The longest decided prefix of the statuses, genesis slots passed over. -/
def decidedStatuses : List (LeaderStatus n) → List (LeaderStatus n)
  | [] => []
  | s :: rest =>
    if s.round = genesisRound then decidedStatuses rest
    else if s.isDecided then s :: decidedStatuses rest
    else []

theorem decidedPrefix_outcome (leaders : List (LeaderStatus n × Decision)) :
    (decidedPrefix leaders).map outcome = decidedStatuses (leaders.map Prod.fst) := by
  induction leaders with
  | nil => rfl
  | cons leader leaders ih =>
    obtain ⟨s, decision⟩ := leader
    rw [decidedPrefix, map_cons, decidedStatuses]
    by_cases hgen : s.round = genesisRound
    · rw [if_pos hgen, if_pos hgen, ih]
    · rw [if_neg hgen, if_neg hgen]
      cases s <;> simp [LeaderStatus.intoDecidedLeader, LeaderStatus.isDecided, outcome, ih]

theorem decidedStatuses_extends {l : List (LeaderStatus n)} (h : Forall₂ Extends l l') :
    decidedStatuses l <+: decidedStatuses (l' ++ rest) := by
  induction h with
  | nil => exact nil_prefix
  | @cons s s' l l' hs _ ih =>
    rw [cons_append, decidedStatuses, decidedStatuses, ← hs.1]
    by_cases hgen : s.round = genesisRound
    · rw [if_pos hgen, if_pos hgen]
      exact ih
    · rw [if_neg hgen, if_neg hgen]
      by_cases hd : s.isDecided = true
      · obtain rfl := hs.2 hd
        rw [if_pos hd, if_pos hd, prefix_cons_inj]
        exact ih
      · rw [if_neg hd]
        exact nil_prefix

theorem decidedStatuses_comparable {l : List (LeaderStatus n)} (h : Forall₂ Agree l l') :
    decidedStatuses l <+: decidedStatuses (l' ++ rest) ∨
      decidedStatuses (l' ++ rest) <+: decidedStatuses l := by
  induction h with
  | nil => exact .inl nil_prefix
  | @cons s s' l l' hs _ ih =>
    rw [cons_append, decidedStatuses, decidedStatuses, ← hs.1]
    by_cases hgen : s.round = genesisRound
    · rw [if_pos hgen, if_pos hgen]
      exact ih
    · rw [if_neg hgen, if_neg hgen]
      by_cases hd : s.isDecided = true
      · by_cases hd' : s'.isDecided = true
        · obtain rfl := hs.2 hd hd'
          rw [if_pos hd, if_pos hd, prefix_cons_inj, prefix_cons_inj]
          exact ih
        · rw [if_neg hd']
          exact .inr nil_prefix
      · rw [if_neg hd]
        exact .inl nil_prefix

/-! ## The slots that are looked at -/

/-- The slots between the last decided one and `highest`, in ascending order. -/
def leaderSlots (u : UniversalCommitter n) (last : Slot n) (first highest : ℕ) : List (Slot n) :=
  (((u.descending first highest).filterMap fun p => p.2.electLeader u.schedule p.1).takeWhile
    (· ≠ last)).reverse

theorem electLeader_eq_some {round : ℕ} (h : c.electLeader schedule round = some slot) :
    slot.round = round ∧ (c.waveLength = 3 → c.decisionRound (c.waveNumber round) = round + 2) := by
  unfold electLeader at h
  by_cases hr : c.leaderRound (c.waveNumber round) = round
  · simp only [hr, ne_eq, not_true_eq_false, if_false, Option.some.injEq] at h
    subst h
    refine ⟨rfl, fun hw => ?_⟩
    unfold leaderRound at hr
    unfold decisionRound
    omega
  · simp [hr] at h

theorem mem_descending {p : ℕ × BaseCommitter} (h : p ∈ u.descending first highest) :
    first ≤ p.1 ∧ p.2 ∈ u.committers := by
  simp only [descending, mem_flatMap, mem_reverse, mem_map, mem_range'_1] at h
  obtain ⟨round, ⟨hf, _⟩, c, hc, rfl⟩ := h
  exact ⟨hf, hc⟩

theorem first_le_leaderSlots : ∀ slot ∈ u.leaderSlots last first highest, first ≤ slot.round := by
  intro slot h
  rw [leaderSlots, mem_reverse] at h
  obtain ⟨p, hp, he⟩ := mem_filterMap.1 ((takeWhile_sublist _).subset h)
  rw [(electLeader_eq_some he).1]
  exact (mem_descending hp).1

theorem descending_append (u : UniversalCommitter n) (hf : first ≤ highest + 1)
    (hle : highest ≤ highest') :
    u.descending first highest' =
      u.descending (highest + 1) highest' ++ u.descending first highest := by
  have hs : List.range' first (highest' + 1 - first) = List.range' first (highest + 1 - first) ++
        List.range' (highest + 1) (highest' + 1 - (highest + 1)) := by
    have happ := List.range'_append_1 (s := first) (m := highest + 1 - first)
      (n := highest' + 1 - (highest + 1))
    rw [Nat.add_sub_cancel' hf] at happ
    rw [happ]
    congr 1
    omega
  simp only [descending, hs, reverse_append, flatMap_append]

/-- With a higher highest round, more slots follow. -/
theorem leaderSlots_initial (hl : last.round ≤ first) (hle : highest ≤ highest') :
    u.leaderSlots last first highest <+: u.leaderSlots last first highest' := by
  by_cases hf : first ≤ highest
  · have ha : ∀ slot ∈ (u.descending (highest + 1) highest').filterMap
        (fun p => p.2.electLeader u.schedule p.1), decide (slot ≠ last) = true := by
      intro slot hs
      obtain ⟨p, hp, he⟩ := mem_filterMap.1 hs
      have hr := (electLeader_eq_some he).1
      have hp' := (mem_descending hp).1
      refine decide_eq_true fun heq => ?_
      subst heq
      omega
    rw [leaderSlots, leaderSlots, descending_append u (by omega) hle, filterMap_append,
      takeWhile_append_of_pos ha, reverse_append]
    exact prefix_append ..
  · have hem : highest + 1 - first = 0 := by omega
    simp [leaderSlots, descending, hem]

theorem waveLength_of_mem_build {numberOfLeaders : ℕ} {pipeline : Bool}
    (h : c ∈ (build schedule defaultWaveLength numberOfLeaders pipeline).committers) :
    c.waveLength = 3 := by
  simp only [build, mem_flatMap, mem_map] at h
  obtain ⟨_, _, _, _, rfl⟩ := h
  rfl

theorem le_lastRound (d : DagState C) (last : Slot n) : last.round ≤ lastRound d last := by
  unfold lastRound
  split <;> omega

/-- `try_decide` decides its slots and returns the decided prefix. -/
theorem tryDecide_ok (hw : ∀ c ∈ u.committers, c.waveLength = 3)
    (hv : View U d (lastRound d last)) (hla : d.lastCommitRound ≤ last.round) :
    ∃ out statuses, u.tryDecide d last = .ok out ∧ out.map outcome = decidedStatuses statuses ∧
      Decided U d.held (u.leaderSlots last (lastRound d last) (d.highestAcceptedRound - 2))
        statuses := by
  have hpos : ∀ p ∈ u.descending (lastRound d last) (d.highestAcceptedRound - 2), ∀ slot,
      p.2.electLeader u.schedule p.1 = some slot →
      lastRound d last ≤ slot.round ∧ d.lastCommitRound ≤ slot.round ∧ p.2.waveLength = 3 ∧
        p.2.decisionRound (p.2.waveNumber slot.round) = slot.round + 2 := by
    intro p hp slot he
    obtain ⟨hr, hde⟩ := electLeader_eq_some he
    obtain ⟨hf, hc⟩ := mem_descending hp
    have hle := le_lastRound d last
    refine ⟨by omega, by omega, hw _ hc, ?_⟩
    rw [hr, hde (hw _ hc)]
  obtain ⟨leaders, hl, hd⟩ := decideLoop_ok hv last hpos [] .nil
  refine ⟨decidedPrefix leaders, leaders.map Prod.fst, ?_, decidedPrefix_outcome leaders, ?_⟩
  · rw [tryDecide, hl, ok_bind, pure_ok]
  · rw [append_nil] at hd
    exact hd

/-- **Agreement and monotonicity of the commit rule.** The committers of all leaders and pipeline
stages, run by two validators of one protocol on views that hold everything from the first round
they look at, return without a panic. The decided sequences are comparable, and if one validator
holds all blocks of the other, its sequence is the longer one. -/
theorem decided_sequences_agree (schedule : LeaderSchedule n) (numberOfLeaders : ℕ)
    (pipeline : Bool) (last : Slot n) {d d' : DagState C}
    (hprotocol : d.context.protocol = d'.context.protocol)
    (hv : View U d (lastRound d last)) (hv' : View U d' (lastRound d' last))
    (hlast : d.lastCommitRound ≤ last.round) (hlast' : d'.lastCommitRound ≤ last.round) :
    ∃ out out',
      (build schedule defaultWaveLength numberOfLeaders pipeline).tryDecide d last = .ok out ∧
      (build schedule defaultWaveLength numberOfLeaders pipeline).tryDecide d' last = .ok out' ∧
      (d.held ⊆ d'.held → out.map outcome <+: out'.map outcome) ∧
      (out.map outcome <+: out'.map outcome ∨ out'.map outcome <+: out.map outcome) := by
  have hwave : ∀ c ∈ (build schedule defaultWaveLength numberOfLeaders pipeline).committers,
      c.waveLength = 3 := fun c hc => waveLength_of_mem_build hc
  have hfirst : lastRound d' last = lastRound d last := by
    unfold lastRound
    rw [hprotocol]
  rw [hfirst] at hv'
  have hle := le_lastRound d last
  obtain ⟨out, statuses, hout, hstat, hdecided⟩ := tryDecide_ok hwave hv hlast
  obtain ⟨out', statuses', hout', hstat', hdecided'⟩ :=
    tryDecide_ok hwave (hfirst ▸ hv') hlast'
  rw [hfirst] at hdecided'
  refine ⟨out, out', hout, hout', fun hsub => ?_, ?_⟩
  · have hhigh : d.highestAcceptedRound ≤ d'.highestAcceptedRound := by
      rcases hv.highest_eq with hzero | ⟨b, hb, hround⟩
      · omega
      · exact hround ▸ hv'.highest_le b (hsub hb)
    obtain ⟨common, rest, rfl, hext⟩ := hdecided.mono hv hv' hsub first_le_leaderSlots
      (leaderSlots_initial hle (Nat.sub_le_sub_right hhigh 2)) hdecided'
    rw [hstat, hstat']
    exact decidedStatuses_extends hext
  · rw [hstat, hstat']
    rcases Nat.le_total d.highestAcceptedRound d'.highestAcceptedRound with hhigh | hhigh
    · obtain ⟨common, rest, rfl, hagree⟩ := hdecided.agree hv hv' first_le_leaderSlots
        (leaderSlots_initial hle (Nat.sub_le_sub_right hhigh 2)) hdecided'
      exact decidedStatuses_comparable hagree
    · obtain ⟨common, rest, rfl, hagree⟩ := hdecided'.agree hv' hv first_le_leaderSlots
        (leaderSlots_initial hle (Nat.sub_le_sub_right hhigh 2)) hdecided
      exact (decidedStatuses_comparable hagree).symm

/-! ## A small network -/

/-- Leaders take turns. -/
def sampleSchedule : LeaderSchedule 4 := fun round offset =>
  ⟨(round + offset) % 4, Nat.mod_lt _ (by decide)⟩

/-- The validator with five rounds extends what the one with four rounds decides. -/
theorem decided_sequences_agree_sample : ∃ out out',
      (build sampleSchedule defaultWaveLength 1 true).tryDecide (sampleDag 4) ⟨0, 0⟩ = .ok out ∧
      (build sampleSchedule defaultWaveLength 1 true).tryDecide (sampleDag 5) ⟨0, 0⟩ = .ok out' ∧
      out.map outcome <+: out'.map outcome := by
  have hheld : ∀ b ∈ sampleBlocks 5, b.round ≠ 0 ∧ (sampleDag 5).getBlock b.reference = some b := by
    decide +kernel
  have hprotocol : (sampleDag 4).context.protocol = (sampleDag 5).context.protocol := rfl
  obtain ⟨out, out', hout, hout', hext, _⟩ := decided_sequences_agree sampleSchedule 1 true ⟨0, 0⟩
    hprotocol (sampleDag_view (.inl rfl) _) (sampleDag_view (.inr rfl) _) (by decide) (by decide)
  exact ⟨out, out', hout, hout',
    hext fun b hb => hheld b ((sampleDag_view (.inl rfl) 0).subset hb)⟩

example : ((build sampleSchedule defaultWaveLength 1 true).tryDecide (sampleDag 5)
    ⟨0, 0⟩).toOption = some [.commit (sampleBlock 1 1) true, .commit (sampleBlock 2 2) true,
      .commit (sampleBlock 3 3) true] := by decide +kernel

end UniversalCommitter

end OneChain.Consensus
