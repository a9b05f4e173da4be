import OneChain.Lib.Worklist
import OneChain.Consensus.Dag
import OneChain.Consensus.Linearizer

/-!
# What a sequence of leaders commits

The commits of a sequence of leaders as a relation that mentions no validator: `IsNext` says which
sub-dag and commit follow a history of commits, by a traversal of the blocks that exist, and
`Linearizes` iterates it. The relation is a function of the leaders (`Linearizes.unique`).

Rounds decrease along links, so whatever is reachable above the GC round is reachable through
blocks above it, and `ReachedBy` only asks for a path.

* `Linearizes.mem_blocks` — a block is in a sub-dag exactly if this sub-dag's leader is the first
  one that reaches it above the GC round of its time.
-/

namespace OneChain.Consensus

open Lib List VerifiedBlocks

variable {n : ℕ} {C : Committee n}

/-! ## Looking up blocks -/

namespace VerifiedBlocks

open Classical in
/-- The block with a reference. -/
noncomputable def find (U : VerifiedBlocks C) (r : BlockRef n) : Option (Block n) :=
  if h : ∃ b ∈ U.blocks, b.reference = r then some h.choose else none

variable {U : VerifiedBlocks C}

variable {b : Block n} {r : BlockRef n}

theorem find_eq_some : U.find r = some b ↔ b ∈ U.blocks ∧ b.reference = r := by
  unfold find
  by_cases h : ∃ b ∈ U.blocks, b.reference = r
  · rw [dif_pos h, Option.some.injEq]
    obtain ⟨hmem, href⟩ := h.choose_spec
    constructor
    · rintro rfl
      exact ⟨hmem, href⟩
    · rintro ⟨hb, hbr⟩
      exact U.reference_injOn hmem hb (href.trans hbr.symm)
  · rw [dif_neg h]
    simp only [reduceCtorEq, false_iff]
    exact fun hb => h ⟨b, hb⟩

theorem find_reference (hb : b ∈ U.blocks) : U.find b.reference = some b := find_eq_some.2 ⟨hb, rfl⟩

theorem map_find {l : List (Block n)} (hl : ∀ b ∈ l, b ∈ U.blocks) :
    (l.map Block.reference).map U.find = l.map some := by
  rw [map_map]
  exact map_congr_left fun b hb => find_reference (hl b hb)

/-- Genesis blocks come from the genesis map. -/
noncomputable def lookup (U : VerifiedBlocks C) (protocol : Protocol n) (r : BlockRef n) :
    Option (Block n) :=
  if r.round = genesisRound then (genesisMap C protocol).get? r else U.find r

/-- The ancestors of a block above a round. -/
noncomputable def ancestorsAbove (U : VerifiedBlocks C) (g : ℕ) (r : BlockRef n) :
    List (BlockRef n) :=
  match U.find r with
  | some b => b.ancestors.filter fun a => g < a.round
  | none => []

theorem ancestorsAbove_reference (hb : b ∈ U.blocks) (g : ℕ) :
    U.ancestorsAbove g b.reference = b.ancestors.filter fun a => g < a.round := by
  rw [ancestorsAbove, find_reference hb]

theorem mem_ancestorsAbove {g : ℕ} {a : BlockRef n} : a ∈ U.ancestorsAbove g r ↔
      ∃ b ∈ U.blocks, b.reference = r ∧ a ∈ b.ancestors ∧ g < a.round := by
  unfold ancestorsAbove
  cases hf : U.find r with
  | none =>
    simp only [not_mem_nil, false_iff]
    rintro ⟨b, hb, hbr, _⟩
    rw [find_eq_some.2 ⟨hb, hbr⟩] at hf
    cases hf
  | some b =>
    obtain ⟨hb, hbr⟩ := find_eq_some.1 hf
    simp only [mem_filter, decide_eq_true_eq]
    constructor
    · intro h
      exact ⟨b, hb, hbr, h⟩
    · rintro ⟨b', hb', hbr', h⟩
      rwa [U.reference_injOn hb hb' (hbr.trans hbr'.symm)]

theorem nodup_ancestorsAbove (U : VerifiedBlocks C) (g : ℕ) (r : BlockRef n) :
    (U.ancestorsAbove g r).Nodup := by
  unfold ancestorsAbove
  cases hf : U.find r with
  | none => exact nodup_nil
  | some b =>
    exact ((U.wellFormed (find_eq_some.1 hf).1).authors_nodup.of_map).filter _

end VerifiedBlocks

/-! ## Links above a round -/

variable {b : Block n}

theorem Linked.tail {blocks : Set (Block n)} {b' : Block n}
    (h : Linked blocks b b'.reference) (hb' : b' ∈ blocks) (hr : r ∈ b'.ancestors) :
    Linked blocks b r := by
  generalize hs : b'.reference = s at h
  induction h with
  | direct hmem => exact .trans (hs ▸ hmem) hb' (.direct hr)
  | trans hmem hc _ ih => exact .trans hmem hc (ih hs)

variable {U : VerifiedBlocks C}

open Worklist in
/-- The traversal above a round follows the links, and stays above the round by itself. -/
theorem leads_ancestorsAbove {l : Block n} (hl : l ∈ U.blocks) (hb : b ∈ U.blocks) {g : ℕ}
    (hro : g < b.round) :
    Leads (U.ancestorsAbove g) l.reference b.reference ↔ b = l ∨ Linked U.blocks l b.reference := by
  constructor
  · intro h
    have hln : ∀ r, Leads (U.ancestorsAbove g) l.reference r →
        r = l.reference ∨ Linked U.blocks l r := by
      intro r hr
      induction hr with
      | refl => exact .inl rfl
      | tail _ hs ih =>
        obtain ⟨c, hc, rfl, hmem, _⟩ := mem_ancestorsAbove.1 hs
        rcases ih with heq | hli
        · rw [U.reference_injOn hc hl heq] at hmem
          exact .inr (.direct hmem)
        · exact .inr (hli.tail hc hmem)
    exact (hln _ h).imp_left fun heq => U.reference_injOn hb hl heq
  · rintro (rfl | h)
    · exact .refl
    · have hle : ∀ {c r}, c ∈ U.blocks → Linked U.blocks c r → g < r.round →
          Leads (U.ancestorsAbove g) c.reference r := by
        intro c r hc hli hr
        induction hli with
        | direct hmem =>
          exact .single (mem_ancestorsAbove.2 ⟨_, hc, rfl, hmem, hr⟩)
        | @trans c c' r hmem hc' hli ih =>
          have hlt := U.round_lt_of_linked hc' hli
          have hs : c'.reference ∈ U.ancestorsAbove g c.reference :=
            mem_ancestorsAbove.2 ⟨c, hc, rfl, hmem, by
              rw [Block.reference_round]
              omega⟩
          exact .head hs (ih hc' hr)
      exact hle hl h hro

/-! ## Histories -/

/-- Sub-dags with their commits. -/
abbrev CommitHistory (n : ℕ) := List (CommittedSubDag n × TrustedCommit n)

namespace CommitHistory

variable (H : CommitHistory n)

def lastCommit : Option (TrustedCommit n) := H.getLast?.map Prod.snd

/-- The GC round after the history. -/
def gcRound (protocol : Protocol n) (H : CommitHistory n) : ℕ :=
  (H.lastCommit.map fun commit => commit.leader.round).getD 0 - protocol.gcDepth

/-- The blocks of all sub-dags. -/
def blocks : List (Block n) := H.flatMap fun e => e.1.blocks

def committed : Finset (BlockRef n) := (H.blocks.map Block.reference).toFinset

theorem mem_committed {H : CommitHistory n} :
    r ∈ H.committed ↔ ∃ b ∈ H.blocks, b.reference = r := by
  simp [committed]

theorem blocks_snoc (e : CommittedSubDag n × TrustedCommit n) :
    blocks (H ++ [e]) = H.blocks ++ e.1.blocks := by
  simp [blocks]

theorem lastCommit_snoc (e : CommittedSubDag n × TrustedCommit n) :
    lastCommit (H ++ [e]) = some e.2 := by
  simp [lastCommit]

end CommitHistory

/-- The sub-dag and the commit that follow the last commit. -/
def nextCommit (protocol : Protocol n) (lastCommit : Option (TrustedCommit n)) (leader : Block n)
    (blocks : List (Block n)) (timestampMs : ℕ) : CommittedSubDag n × TrustedCommit n :=
  let commit := TrustedCommit.newTrusted protocol.commitDigest
    ⟨(lastCommit.map fun commit => commit.index).getD 0 + 1,
      (lastCommit.map fun commit => commit.digest).getD 0, timestampMs, leader.reference,
      blocks.map Block.reference⟩
  (.new leader.reference blocks timestampMs commit.reference, commit)

/-- The sub-dag and commit of a leader after a history. -/
structure IsNext (U : VerifiedBlocks C) (protocol : Protocol n) (H : CommitHistory n)
    (leader : Block n) (e : CommittedSubDag n × TrustedCommit n) (fuel : ℕ)
    (marked : Finset (BlockRef n)) (toCommit parents : List (Block n)) (median : ℕ) : Prop where
  explored : Worklist.explore (U.ancestorsAbove (H.gcRound protocol)) fuel
    (insert leader.reference H.committed) [leader.reference] [] =
      some (marked, toCommit.map Block.reference)
  toCommit_mem : ∀ b ∈ toCommit, b ∈ U.blocks
  parents_eq : (leader.ancestors.filter fun r => r.round = leader.round - 1).map
    (U.lookup protocol) = parents.map some
  median_eq : medianTimestampByStake C parents = .ok median
  next_eq : e = nextCommit protocol H.lastCommit leader (sortSubDagBlocks toCommit)
    (max median ((H.lastCommit.map fun commit => commit.timestampMs).getD 0))

/-- The history is what the leaders commit, one after the other. -/
inductive Linearizes (U : VerifiedBlocks C) (protocol : Protocol n) :
    List (Block n) → CommitHistory n → Prop
  | nil : Linearizes U protocol [] []
  | snoc {leaders : List (Block n)} {H : CommitHistory n} {leader : Block n}
      {e : CommittedSubDag n × TrustedCommit n} {fuel : ℕ} {marked : Finset (BlockRef n)}
      {toCommit parents : List (Block n)} {median : ℕ} : Linearizes U protocol leaders H →
      IsNext U protocol H leader e fuel marked toCommit parents median →
      Linearizes U protocol (leaders ++ [leader]) (H ++ [e])

variable {protocol : Protocol n} {H : CommitHistory n} {leaders : List (Block n)}

/-- The traversal, the timestamps and what is built from them are determined. -/
theorem IsNext.unique {leader : Block n} {e e' : CommittedSubDag n × TrustedCommit n}
    {fuel fuel' : ℕ} {marked marked' : Finset (BlockRef n)}
    {toCommit toCommit' parents parents' : List (Block n)} {median median' : ℕ}
    (h : IsNext U protocol H leader e fuel marked toCommit parents median)
    (h' : IsNext U protocol H leader e' fuel' marked' toCommit' parents' median') : e = e' := by
  have hr : toCommit.map Block.reference = toCommit'.map Block.reference :=
    congrArg Prod.snd (Worklist.explore_unique h.explored h'.explored)
  have hb : toCommit = toCommit' := by
    have hf := congrArg (List.map U.find) hr
    rw [map_find h.toCommit_mem, map_find h'.toCommit_mem] at hf
    exact map_injective_iff.2 (Option.some_injective _) hf
  have hpar : parents = parents' :=
    map_injective_iff.2 (Option.some_injective _) (h.parents_eq.symm.trans h'.parents_eq)
  have hmed : median = median' := by
    have heq := h.median_eq
    rw [hpar, h'.median_eq] at heq
    exact (Except.ok.inj heq).symm
  rw [h.next_eq, h'.next_eq, hb, hmed]

section

variable (h : Linearizes U protocol leaders H)
include h

/-- **The history is a function of the leaders.** -/
theorem Linearizes.unique {H' : CommitHistory n}
    (h' : Linearizes U protocol leaders H') : H = H' := by
  induction h generalizing H' with
  | nil =>
    generalize hl : ([] : List (Block n)) = leaders at h'
    cases h' with
    | nil => rfl
    | snoc _ _ => simp at hl
  | @snoc leaders H leader e _ _ _ _ _ _ hn ih =>
    generalize hl : leaders ++ [leader] = leaders' at h'
    cases h' with
    | nil => simp at hl
    | snoc hr hn' =>
      obtain ⟨rfl, hle⟩ := append_inj' hl rfl
      cases hle
      obtain rfl := ih hr
      rw [hn.unique hn']

theorem Linearizes.length_eq : H.length = leaders.length := by
  induction h with
  | nil => rfl
  | snoc _ _ ih => simp [ih]

theorem Linearizes.take (m : ℕ) : Linearizes U protocol (leaders.take m) (H.take m) := by
  induction h with
  | nil => simpa using .nil
  | @snoc leaders H leader e _ _ _ _ _ hr hn ih =>
    have hlen := hr.length_eq
    by_cases hm : m ≤ leaders.length
    · rw [take_append_of_le_length hm, take_append_of_le_length (by omega)]
      exact ih
    · rw [take_of_length_le (by simp; omega), take_of_length_le (by simp; omega)]
      exact .snoc hr hn

end

/-! ## What is in a sub-dag -/

/-- Committed leaders come in the order of their rounds. -/
structure LeaderSequence (U : VerifiedBlocks C) (leaders : List (Block n)) : Prop where
  mem : ∀ l ∈ leaders, l ∈ U.blocks
  ordered : leaders.Pairwise fun l l' => l.round ≤ l'.round ∧ l ≠ l'

/-- The GC round when the leader with the index is committed. -/
def gcRoundBefore (protocol : Protocol n) (leaders : List (Block n)) : ℕ → ℕ
  | 0 => 0
  | k + 1 => (leaders[k]?.map Block.round).getD 0 - protocol.gcDepth

variable (U protocol leaders) in
/-- The leader with the index has a path to the block, and the block is above the GC round. -/
def ReachedBy (k : ℕ) (b : Block n) : Prop :=
  b ∈ U.blocks ∧ gcRoundBefore protocol leaders k < b.round ∧
    ∃ l, leaders[k]? = some l ∧ (b = l ∨ Linked U.blocks l b.reference)

/-- What is known about a history from its leaders. -/
structure Faithful (U : VerifiedBlocks C) (protocol : Protocol n) (leaders : List (Block n))
    (H : CommitHistory n) : Prop where
  length_eq : H.length = leaders.length
  entry : ∀ k e, H[k]? = some e → ∃ l, leaders[k]? = some l ∧ e.1.leader = l.reference ∧
    e.1.commitRef = e.2.reference ∧ e.2.index = k + 1 ∧ e.2.leader = l.reference ∧
    e.2.timestampMs = e.1.timestampMs ∧ e.2.blocks = e.1.blocks.map Block.reference
  mem_blocks : ∀ k e, H[k]? = some e → ∀ b, b ∈ e.1.blocks ↔
    ReachedBy U protocol leaders k b ∧ ∀ j < k, ¬ ReachedBy U protocol leaders j b
  nodup : ∀ e ∈ H, e.1.blocks.Nodup
  closed : ∀ b ∈ H.blocks, ∀ a ∈ b.ancestors, H.gcRound protocol < a.round → a ∈ H.committed

theorem mem_sortSubDagBlocks {blocks : List (Block n)} : b ∈ sortSubDagBlocks blocks ↔ b ∈ blocks :=
  (perm_insertionSort _ blocks).mem_iff

section Snoc

variable {leader : Block n}

theorem LeaderSequence.init (h : LeaderSequence U (leaders ++ [leader])) :
    LeaderSequence U leaders :=
  ⟨fun l hl => h.mem l (mem_append_left _ hl), (pairwise_append.1 h.ordered).1⟩

theorem LeaderSequence.last (h : LeaderSequence U (leaders ++ [leader])) :
    leader ∈ U.blocks ∧ ∀ l ∈ leaders, l.round ≤ leader.round ∧ l ≠ leader :=
  ⟨h.mem leader (by simp), fun l hl => (pairwise_append.1 h.ordered).2.2 l hl leader (by simp)⟩

variable {more : List (Block n)} {k : ℕ}

theorem gcRoundBefore_append (hk : k ≤ leaders.length) :
    gcRoundBefore protocol (leaders ++ more) k = gcRoundBefore protocol leaders k := by
  cases k with
  | zero => rfl
  | succ k => rw [gcRoundBefore, gcRoundBefore, getElem?_append_left (by omega)]

theorem reachedBy_append (hk : k < leaders.length) :
    ReachedBy U protocol (leaders ++ more) k b ↔ ReachedBy U protocol leaders k b := by
  rw [ReachedBy, ReachedBy, gcRoundBefore_append hk.le, getElem?_append_left hk]

theorem reachedBy_last : ReachedBy U protocol (leaders ++ [leader]) leaders.length b ↔
      b ∈ U.blocks ∧ gcRoundBefore protocol leaders leaders.length < b.round ∧
        (b = leader ∨ Linked U.blocks leader b.reference) := by
  rw [ReachedBy, gcRoundBefore_append le_rfl]
  simp

theorem lt_length_of_reachedBy (h : ReachedBy U protocol leaders k b) : k < leaders.length := by
  obtain ⟨_, _, l, hl, _⟩ := h
  exact (List.getElem?_eq_some_iff.1 hl).1

/-- The round of a reached block is at most the leader's. -/
theorem round_le_of_reachedBy (hle : LeaderSequence U leaders) {l : Block n}
    (h : ReachedBy U protocol leaders k b) (hl : leaders[k]? = some l) :
    b = l ∨ b.round < l.round := by
  obtain ⟨_, _, l', hl', hp⟩ := h
  cases hl.symm.trans hl'
  refine hp.imp_right fun hli => ?_
  exact U.round_lt_of_linked (hle.mem l (mem_of_getElem? hl)) hli

end Snoc

namespace Faithful

variable {leader : Block n}

variable (h : Faithful U protocol leaders H)

include h

theorem mem_blocks_iff : b ∈ H.blocks ↔ ∃ j, ReachedBy U protocol leaders j b := by
  constructor
  · intro hb
    obtain ⟨e, he, hbe⟩ := mem_flatMap.1 hb
    obtain ⟨k, hk⟩ := mem_iff_getElem?.1 he
    exact ⟨k, ((h.mem_blocks k e hk b).1 hbe).1⟩
  · intro hj
    -- the first leader that reaches it
    classical
    obtain ⟨hr, hf⟩ := (⟨Nat.find_spec hj, fun j hj' => Nat.find_min hj hj'⟩ :
      ReachedBy U protocol leaders (Nat.find hj) b ∧
        ∀ j < Nat.find hj, ¬ ReachedBy U protocol leaders j b)
    have hlt := lt_length_of_reachedBy hr
    rw [← h.length_eq] at hlt
    have hen := getElem?_eq_getElem hlt
    exact mem_flatMap.2 ⟨H[Nat.find hj], getElem_mem hlt, (h.mem_blocks _ _ hen b).2 ⟨hr, hf⟩⟩

theorem blocks_mem (hb : b ∈ H.blocks) : b ∈ U.blocks := by
  obtain ⟨_, hr⟩ := h.mem_blocks_iff.1 hb
  exact hr.1

open CommitHistory

theorem mem_committed_iff (hb : b ∈ U.blocks) :
    b.reference ∈ H.committed ↔ ∃ j, ReachedBy U protocol leaders j b := by
  rw [mem_committed, ← h.mem_blocks_iff]
  constructor
  · rintro ⟨b', hb', heq⟩
    rwa [← U.reference_injOn (h.blocks_mem hb') hb heq]
  · intro hb'
    exact ⟨b, hb', rfl⟩

theorem lastCommit_eq : (H.lastCommit.map fun commit => commit.index).getD 0 = leaders.length ∧
      (H.lastCommit.map fun commit => commit.leader.round).getD 0 =
        (leaders.getLast?.map Block.round).getD 0 := by
  unfold lastCommit
  rw [getLast?_eq_getElem?, getLast?_eq_getElem?, h.length_eq]
  cases hla : H[leaders.length - 1]? with
  | none =>
    have hlen : H.length ≤ leaders.length - 1 := List.getElem?_eq_none_iff.1 hla
    have hz : leaders = [] := length_eq_zero_iff.1 (by have := h.length_eq; omega)
    simp [hz]
  | some e =>
    obtain ⟨l, hl, _, _, hi, hle, _⟩ := h.entry _ e hla
    have hlt := (List.getElem?_eq_some_iff.1 hl).1
    simp only [Option.map_some, Option.getD_some, hl, hle, Block.reference_round, and_true]
    omega

theorem gcRound_eq : H.gcRound protocol = gcRoundBefore protocol leaders leaders.length := by
  rw [gcRound, h.lastCommit_eq.2, getLast?_eq_getElem?]
  cases hlen : leaders.length with
  | zero => simp [length_eq_zero_iff.1 hlen, gcRoundBefore]
  | succ k => rfl

variable (hdepth : 0 < protocol.gcDepth)

include hdepth in
theorem gcRound_lt
    (hld : LeaderSequence U (leaders ++ [leader])) : H.gcRound protocol < leader.round := by
  obtain ⟨hl, hord⟩ := hld.last
  have hpos := (U.wellFormed hl).round_pos
  rw [gcRound, h.lastCommit_eq.2]
  cases hla : leaders.getLast? with
  | none =>
    simp only [Option.map_none, Option.getD_none]
    omega
  | some l =>
    have hle := (hord l (mem_of_getLast? hla)).1
    simp only [Option.map_some, Option.getD_some]
    omega

theorem gcRound_le (hld : LeaderSequence U (leaders ++ [leader])) :
    H.gcRound protocol ≤ leader.round - protocol.gcDepth := by
  obtain ⟨_, hord⟩ := hld.last
  rw [gcRound, h.lastCommit_eq.2]
  cases hl : leaders.getLast? with
  | none => simp
  | some l =>
    have hle := (hord l (mem_of_getLast? hl)).1
    simp only [Option.map_some, Option.getD_some]
    omega

theorem notMem_committed
    (hl : LeaderSequence U (leaders ++ [leader])) : leader.reference ∉ H.committed := by
  obtain ⟨hle, hord⟩ := hl.last
  rw [h.mem_committed_iff hle]
  rintro ⟨j, hr⟩
  have hlt := lt_length_of_reachedBy hr
  have hmem := getElem_mem hlt
  rcases round_le_of_reachedBy hl.init hr (getElem?_eq_getElem hlt) with heq | hro
  · exact (hord _ hmem).2 heq.symm
  · have := (hord _ hmem).1
    omega

/-- No link above the GC round leaves what is committed. -/
theorem committed_closed :
    ∀ a ∈ H.committed, ∀ r ∈ U.ancestorsAbove (H.gcRound protocol) a, r ∈ H.committed := by
  intro a ha r hr
  obtain ⟨b, hb, rfl⟩ := mem_committed.1 ha
  obtain ⟨b', hb', heq, hmem, hro⟩ := mem_ancestorsAbove.1 hr
  rw [U.reference_injOn hb' (h.blocks_mem hb) heq] at hmem
  exact h.closed b hb r hmem hro

variable {e : CommittedSubDag n × TrustedCommit n} {fuel : ℕ} {marked : Finset (BlockRef n)}
  {toCommit parents : List (Block n)} {median : ℕ}
  (hlead : LeaderSequence U (leaders ++ [leader]))
  (hnext : IsNext U protocol H leader e fuel marked toCommit parents median)

include hdepth hlead hnext

/-- The traversal commits what the leader reaches first. -/
theorem mem_toCommit :
    b ∈ toCommit ↔ ReachedBy U protocol (leaders ++ [leader]) leaders.length b ∧
      ∀ j < leaders.length, ¬ ReachedBy U protocol (leaders ++ [leader]) j b := by
  have hleader := hlead.last.1
  have hvis := Worklist.mem_of_explore (U.nodup_ancestorsAbove _)
    (h.notMem_committed hlead) hnext.explored h.committed_closed
  have hfirst : ∀ {b}, b ∈ U.blocks → (b.reference ∉ H.committed ↔
      ∀ j < leaders.length, ¬ ReachedBy U protocol (leaders ++ [leader]) j b) := by
    intro b hb
    rw [h.mem_committed_iff hb, not_exists]
    constructor
    · intro hnot j hj hreached
      exact hnot j ((reachedBy_append hj).1 hreached)
    · intro hnot j hreached
      have hj := lt_length_of_reachedBy hreached
      exact hnot j hj ((reachedBy_append hj).2 hreached)
  rw [reachedBy_last, ← h.gcRound_eq]
  constructor
  · intro hb
    have hU := hnext.toCommit_mem b hb
    obtain ⟨hleads, hnot⟩ := (hvis b.reference).1 (mem_map_of_mem hb)
    have hround : H.gcRound protocol < b.round := by
      rcases Relation.ReflTransGen.cases_tail hleads with heq | ⟨c, _, hstep⟩
      · rw [U.reference_injOn hU hleader heq]
        exact h.gcRound_lt hdepth hlead
      · obtain ⟨_, _, _, _, hround⟩ := mem_ancestorsAbove.1 hstep
        exact hround
    exact ⟨⟨hU, hround, (leads_ancestorsAbove hleader hU hround).1 hleads⟩, (hfirst hU).1 hnot⟩
  · rintro ⟨⟨hU, hround, hpath⟩, hnot⟩
    have hmem := (hvis b.reference).2
      ⟨(leads_ancestorsAbove hleader hU hround).2 hpath, (hfirst hU).2 hnot⟩
    obtain ⟨b', hb', heq⟩ := mem_map.1 hmem
    rwa [← U.reference_injOn (hnext.toCommit_mem b' hb') hU heq]

theorem snoc : Faithful U protocol (leaders ++ [leader]) (H ++ [e]) := by
  have hblocks : e.1.blocks = sortSubDagBlocks toCommit := by rw [hnext.next_eq]; rfl
  have hlast : ∀ {k e'}, (H ++ [e])[k]? = some e' →
      (k < leaders.length ∧ H[k]? = some e') ∨ (k = leaders.length ∧ e' = e) := by
    intro k e' hk
    have hlt := (List.getElem?_eq_some_iff.1 hk).1
    rw [length_append, length_singleton, h.length_eq] at hlt
    by_cases hk' : k < leaders.length
    · rw [getElem?_append_left (by rw [h.length_eq]; exact hk')] at hk
      exact .inl ⟨hk', hk⟩
    · obtain rfl : k = leaders.length := by omega
      rw [← h.length_eq, getElem?_concat_length] at hk
      exact .inr ⟨rfl, (Option.some.inj hk).symm⟩
  refine ⟨by simp [h.length_eq], fun k e' hk => ?_, fun k e' hk b => ?_, fun e' he' => ?_,
    fun b hb a ha hround => ?_⟩
  · rcases hlast hk with ⟨hlt, hold⟩ | ⟨rfl, rfl⟩
    · rw [getElem?_append_left hlt]
      exact h.entry k e' hold
    · rw [hnext.next_eq]
      refine ⟨leader, by simp, rfl, rfl, ?_, rfl, rfl, rfl⟩
      exact congrArg (· + 1) h.lastCommit_eq.1
  · rcases hlast hk with ⟨hlt, hold⟩ | ⟨rfl, rfl⟩
    · rw [h.mem_blocks k e' hold, reachedBy_append hlt]
      refine and_congr_right fun _ => forall₂_congr fun j hj => ?_
      rw [reachedBy_append (hj.trans hlt)]
    · rw [hblocks, mem_sortSubDagBlocks, h.mem_toCommit hdepth hlead hnext]
  · rcases mem_append.1 he' with he' | he'
    · exact h.nodup e' he'
    · obtain rfl := mem_singleton.1 he'
      rw [hblocks]
      refine (perm_insertionSort _ toCommit).nodup_iff.2 ?_
      exact (Worklist.nodup_of_explore (U.nodup_ancestorsAbove _)
        (h.notMem_committed hlead) hnext.explored).of_map
  · -- what the old history had closed stays closed, and the traversal closes the rest
    have hgc : H.gcRound protocol < a.round := by
      have hle := h.gcRound_le hlead
      rw [gcRound, lastCommit_snoc, hnext.next_eq] at hround
      exact lt_of_le_of_lt hle hround
    rw [committed, blocks_snoc, map_append, toFinset_append, Finset.mem_union]
    rw [blocks_snoc, mem_append] at hb
    rcases hb with hb | hb
    · exact .inl (h.closed b hb a ha hgc)
    · rw [hblocks, mem_sortSubDagBlocks] at hb
      have hstep : a ∈ U.ancestorsAbove (H.gcRound protocol) b.reference :=
        mem_ancestorsAbove.2 ⟨b, hnext.toCommit_mem b hb, rfl, ha, hgc⟩
      refine (Worklist.closed_of_explore (U.nodup_ancestorsAbove _)
        (h.notMem_committed hlead) hnext.explored (mem_map_of_mem hb) hstep).imp_right ?_
      intro hmem
      obtain ⟨b', hb', rfl⟩ := mem_map.1 hmem
      rw [hblocks]
      exact mem_toFinset.2 (mem_map_of_mem (mem_sortSubDagBlocks.2 hb'))

end Faithful

/-- **What a sub-dag holds**, for every sequence of leaders. -/
theorem Linearizes.faithful (hdepth : 0 < protocol.gcDepth) (h : Linearizes U protocol leaders H)
    (hl : LeaderSequence U leaders) : Faithful U protocol leaders H := by
  induction h with
  | nil => exact ⟨rfl, by simp, by simp, by simp, by simp [CommitHistory.blocks]⟩
  | snoc _ hn ih => exact (ih hl.init).snoc hdepth hl hn

end OneChain.Consensus
