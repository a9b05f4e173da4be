import OneChain.Checkpoints.Completion
import OneChain.Lib.Transition

/-!
# Checkpoint contents are complete

A builder makes checkpoints out of groups of pending checkpoints. Over all groups of an epoch, the
contents should list the roots, what they depend on in the epoch, and the settlement transactions,
each once and after what it depends on, however the pending checkpoints were grouped.

The settlement transactions of a pending checkpoint are not entered in the record of what is in the
checkpoint. If a later pending checkpoint of the same group depends on one of them, it is added once
more; in a group of its own, that pending checkpoint would have found it in an earlier checkpoint.

* `Resolves` — what a pending checkpoint adds to given contents, by what is in it and not by how it
  is computed; there is only one such list (`Resolves.unique`).
* `resolvePending_resolves` — the code computes it, if what it leaves out is what the contents have.
* `contents_complete` — runs in which no pending checkpoint depends on a settlement of its own
  group.
* `settlement_twice` — a group of two in which one does.
-/

namespace OneChain.Checkpoints

open Lib Authority List OrdMap Option

/-! ## What belongs in the contents -/

section Contents

variable (view : EpochView)

variable (p : PendingCheckpoint)

def rootsOf : List TransactionKey :=
  if view.accumulatorsEnabled then p.roots.dropLast else p.roots

def rootDigestsOf : List TransactionDigest := (rootsOf view p).filterMap (rootDigest view)

def rootEffectsOf : List TransactionEffects :=
  (rootDigestsOf view p).filterMap view.executedEffects.get?

def settlementsOf : List TransactionDigest :=
  if view.accumulatorsEnabled then view.settlementDigests p.checkpointHeight else []

/-- A root of the pending checkpoint leads to the transaction within the epoch. -/
def Reaches (d : TransactionDigest) : Prop :=
  ∃ r ∈ rootDigestsOf view p, Relation.ReflTransGen (LeadsTo view) r d

variable (ps : List PendingCheckpoint)

def Reached (d : TransactionDigest) : Prop := ∃ p ∈ ps, Reaches view p d

def Settled (d : TransactionDigest) : Prop := ∃ p ∈ ps, d ∈ settlementsOf view p

/-- Everything comes after what it depends on in the epoch. -/
def InOrder (contents : List TransactionEffects) : Prop :=
  ∀ pre e post, contents = pre ++ e :: post →
    ∀ d ∈ e.dependencies, d ∈ view.executedInCurEpoch → d ∈ digestsOf pre

/-- The contents for pending checkpoints. -/
structure Complete (contents : List TransactionEffects) : Prop where
  nodup : (digestsOf contents).Nodup
  current : ∀ e ∈ contents, Current view e
  mem : ∀ d, d ∈ digestsOf contents ↔ Reached view ps d ∨ Settled view ps d
  ordered : InOrder view contents

/-- A prologue at the head of the roots. -/
def headPrologue : Option TransactionEffects :=
  (rootEffectsOf view p).head?.filter fun e =>
    view.transactionKind e.transactionDigest = some .consensusCommitPrologue

def prologueOf : Option TransactionEffects :=
  if view.prependPrologue then headPrologue view p else none

/-- What a pending checkpoint brings after those before it. Its roots have executed in the epoch;
its prologue is new and needs only what came before; its settlement transactions executed after
everything they are to follow. -/
structure Arrives (before : List PendingCheckpoint) (p : PendingCheckpoint) : Prop where
  settlementRoot : view.accumulatorsEnabled = true →
    p.roots.getLast? = some (.accumulatorSettlement view.epoch p.checkpointHeight)
  roots : ∀ key ∈ rootsOf view p, ∃ d, rootDigest view key = some d ∧
    d ∈ view.executedInCurEpoch ∧ (view.transactionKind d).isSome
  prologue : ∀ c ∈ prologueOf view p, ¬ Reached view before c.transactionDigest ∧
    ¬ Settled view before c.transactionDigest ∧
    ∀ d, LeadsTo view c.transactionDigest d → Reached view before d
  settlements_nodup : (settlementsOf view p).Nodup
  settlements : ∀ d ∈ settlementsOf view p, d ∈ view.executedInCurEpoch ∧
    ¬ Reached view (before ++ [p]) d ∧ ¬ Settled view before d
  settlements_after : ∀ pre d post, settlementsOf view p = pre ++ d :: post →
    ∀ d', LeadsTo view d d' → Reached view (before ++ [p]) d' ∨ Settled view before d' ∨ d' ∈ pre

/-- No pending checkpoint of the group leads to a settlement transaction of one before it. -/
def Apart (group : List PendingCheckpoint) : Prop :=
  ∀ pre p post, group = pre ++ p :: post → ∀ d, Settled view pre d → ¬ Reaches view p d

/-- The effects that a pending checkpoint adds to the contents. -/
def Resolves (contents : List TransactionEffects) (p : PendingCheckpoint)
    (effects : List TransactionEffects) : Prop :=
  ∃ unsorted body, OneEach unsorted ∧
    (∀ e, e ∈ unsorted ↔ Current view e ∧ Reaches view p e.transactionDigest ∧
      e.transactionDigest ∉ digestsOf (contents ++ (prologueOf view p).toList)) ∧
    causalSort unsorted = some body ∧
    effects = (prologueOf view p).toList ++ body ++
      (settlementsOf view p).filterMap view.executedEffects.get?

/-- One pending checkpoint after the other. -/
inductive ResolvesAll :
    List TransactionEffects → List PendingCheckpoint → List TransactionEffects → Prop
  | nil (contents : List TransactionEffects) : ResolvesAll contents [] []
  | cons {contents effects rest : List TransactionEffects} {p : PendingCheckpoint}
      {ps : List PendingCheckpoint} : Resolves view contents p effects →
      ResolvesAll (contents ++ effects) ps rest → ResolvesAll contents (p :: ps) (effects ++ rest)

end Contents

section Resolution

variable {view : EpochView} {included ex : OrdSet TransactionDigest}
  {cs effects : List TransactionEffects} {p : PendingCheckpoint}
  {before ps : List PendingCheckpoint}

/-! ## There is one such list -/

variable {effects' l : List TransactionEffects} {ps' : List PendingCheckpoint}
  {d d' : TransactionDigest} {s : BuiltContents}

theorem Resolves.unique (h : Resolves view cs p effects)
    (h' : Resolves view cs p effects') : effects = effects' := by
  obtain ⟨unsorted, body, hone, hmem, hs, rfl⟩ := h
  obtain ⟨unsorted', body', _, hmem', hs', rfl⟩ := h'
  rw [causalSort_congr hone fun e => (hmem e).trans (hmem' e).symm, hs'] at hs
  rw [some.inj hs]

theorem ResolvesAll.unique (h : ResolvesAll view cs ps effects)
    (h' : ResolvesAll view cs ps effects') : effects = effects' := by
  induction h generalizing effects' with
  | nil => cases h'; rfl
  | cons h _ ih =>
    cases h' with
    | cons h₁ h₂ =>
      cases h.unique h₁
      rw [ih h₂]

theorem ResolvesAll.append (h : ResolvesAll view cs ps effects)
    (h' : ResolvesAll view (cs ++ effects) ps' effects') :
    ResolvesAll view cs (ps ++ ps') (effects ++ effects') := by
  induction h with
  | nil => simpa using h'
  | cons h _ ih =>
    rw [append_assoc]
    exact .cons h (ih (by rwa [append_assoc]))

/-! ## Closed contents -/

theorem mem_digestsOf : d ∈ digestsOf l ↔ ∃ e ∈ l, e.transactionDigest = d := mem_map

theorem digestsOf_append (l l' : List TransactionEffects) :
    digestsOf (l ++ l') = digestsOf l ++ digestsOf l' := map_append

theorem reached_append : Reached view (ps ++ ps') d ↔ Reached view ps d ∨ Reached view ps' d := by
  simp only [Reached, mem_append, or_and_right, exists_or]

theorem reached_singleton : Reached view [p] d ↔ Reaches view p d := by
  simp [Reached]

theorem settled_append : Settled view (ps ++ ps') d ↔ Settled view ps d ∨ Settled view ps' d := by
  simp only [Settled, mem_append, or_and_right, exists_or]

theorem settled_singleton : Settled view [p] d ↔ d ∈ settlementsOf view p := by
  simp [Settled]

/-- What the contents depend on is in them. -/
theorem Complete.closed (h : Complete view ps contents) (hd : d ∈ digestsOf contents)
    (hl : LeadsTo view d d') : d' ∈ digestsOf contents := by
  obtain ⟨e, he, rfl⟩ := mem_digestsOf.1 hd
  obtain ⟨pre, post, hs⟩ := append_of_mem he
  obtain ⟨hdep, hcur⟩ := (h.current e he).leadsTo.1 hl
  rw [hs, digestsOf_append]
  exact mem_append_left _ (h.ordered pre e post hs d' hdep hcur)

theorem oneEach_of_current (h : ∀ e ∈ l, Current view e) : OneEach l :=
  fun a ha b hb hab => (h a ha).eq (h b hb) hab

theorem Executed.acyclicOn (hv : Executed view) (h : ∀ e ∈ l, Current view e) : AcyclicOn l :=
  fun e hgen => hv.acyclic e
    (Relation.TransGen.mono (fun a b hab => ⟨h a hab.1, h b hab.2.1, hab.2.2⟩) _ _ hgen)

/-- A path past nothing left out is a path to something new, if what is left out is what the
contents have of it. -/
theorem finds_iff {skip : TransactionDigest → Prop}
    (hclosed : ∀ d d', d ∈ digestsOf contents → LeadsTo view d d' → d' ∈ digestsOf contents)
    (hskip : ∀ d, skip d → d ∈ digestsOf contents)
    (hkept : ∀ d ∈ digestsOf contents, Reaches view p d → skip d) :
    Finds view skip (rootDigestsOf view p) d ↔ Reaches view p d ∧ d ∉ digestsOf contents := by
  constructor
  · rintro ⟨r, hr, hstart, hpath⟩
    have hreach : Relation.ReflTransGen (LeadsTo view) r d :=
      Relation.ReflTransGen.mono (fun _ _ h => h.1) _ _ hpath
    refine ⟨⟨r, hr, hreach⟩, fun hd => ?_⟩
    have hnot : ¬ skip d := by
      rcases Relation.ReflTransGen.cases_tail hpath with rfl | ⟨_, _, hlast⟩
      · exact hstart
      · exact hlast.2
    exact hnot (hkept d hd ⟨r, hr, hreach⟩)
  · rintro ⟨⟨r, hr, hpath⟩, hnew⟩
    -- an element of the contents on the path would lead to the end of it
    have hback : ∀ x, Relation.ReflTransGen (LeadsTo view) x d → ¬ skip x := by
      intro x hx hs
      refine hnew ?_
      have hin := hskip x hs
      clear hs
      induction hx using Relation.ReflTransGen.head_induction_on with
      | refl => exact hin
      | head hstep _ ih => exact ih (hclosed _ _ hin hstep)
    refine ⟨r, hr, hback r hpath, ?_⟩
    clear hr
    induction hpath using Relation.ReflTransGen.head_induction_on with
    | refl => exact .refl
    | head hstep hrest ih => exact .head ⟨hstep, hback _ hrest⟩ ih

/-! ## What the code computes -/

/-- What is left out agrees with the contents, as far as the pending checkpoint leads. -/
structure Agrees (view : EpochView) (included existing : OrdSet TransactionDigest)
    (contents : List TransactionEffects) (p : PendingCheckpoint) : Prop where
  skips : ∀ d, Skips included existing d → d ∈ digestsOf contents
  kept : ∀ d ∈ digestsOf contents, Reaches view p d → Skips included existing d

theorem Reaches.root (hd : d ∈ rootDigestsOf view p) : Reaches view p d := ⟨d, hd, .refl⟩

theorem Reaches.tail (h : Reaches view p d) (hd : LeadsTo view d d') : Reaches view p d' := by
  obtain ⟨r, hr, hp⟩ := h
  exact ⟨r, hr, hp.tail hd⟩

theorem mem_foldl_insert_digest {m : OrdSet TransactionDigest} :
    d ∈ l.foldl (fun m e => m.insert e.transactionDigest ()) m ↔ d ∈ m ∨ d ∈ digestsOf l := by
  rw [mem_foldl_insert, or_comm, mem_digestsOf]

section Arrival

variable (h : Arrives view before p)
include h

theorem popSettlementRoot_ok : popSettlementRoot view p = .ok
      (if view.accumulatorsEnabled then
        some (.accumulatorSettlement view.epoch p.checkpointHeight) else none, rootsOf view p) := by
  unfold popSettlementRoot rootsOf
  by_cases hacc : view.accumulatorsEnabled = true
  · rw [if_pos hacc, if_pos hacc, if_pos hacc, h.settlementRoot hacc]
    rfl
  · rw [if_neg hacc, if_neg hacc, if_neg hacc]
    rfl

theorem Arrives.rootDigests :
    ((rootsOf view p).mapM fun key => require (rootDigest view key) (.waiting : ResolveError)) =
      .ok (rootDigestsOf view p) :=
  mapM_require fun key hkey => by
    obtain ⟨d, hd, -⟩ := h.roots key hkey
    rw [hd]
    rfl

theorem Arrives.mem_rootDigests (hd : d ∈ rootDigestsOf view p) :
    d ∈ view.executedInCurEpoch ∧ (view.transactionKind d).isSome := by
  obtain ⟨key, hkey, hr⟩ := mem_filterMap.1 hd
  obtain ⟨d', hd', hcur, hk⟩ := h.roots key hkey
  cases hr.symm.trans hd'
  exact ⟨hcur, hk⟩

variable (hview : Executed view)
include hview

theorem extractConsensusCommitPrologue_ok :
    extractConsensusCommitPrologue view (rootDigestsOf view p) (rootEffectsOf view p) =
      .ok (headPrologue view p) := by
  obtain ⟨-, hdig, -⟩ := hview.read (fun _ => .waiting) fun d hd => (h.mem_rootDigests hd).1
  rw [← rootEffectsOf] at hdig
  have hk := fun d hd => (h.mem_rootDigests (d := d) hd).2
  rw [← hdig] at hk ⊢
  unfold headPrologue
  generalize rootEffectsOf view p = roots at hk ⊢
  cases roots with
  | nil => rfl
  | cons e es =>
    obtain ⟨kind, hk⟩ := isSome_iff_exists.1 (hk e.transactionDigest (mem_map_of_mem mem_cons_self))
    rw [digestsOf, map_cons, extractConsensusCommitPrologue]
    by_cases hp : kind = .consensusCommitPrologue
    · simp [require, hk, hp, check_of, filter_some]
    · simp [require, hk, hp, filter_some]

theorem Arrives.settle_ok :
    settle view (if view.accumulatorsEnabled then
        some (.accumulatorSettlement view.epoch p.checkpointHeight) else none) p.checkpointHeight =
      .ok ((settlementsOf view p).filterMap view.executedEffects.get?) := by
  have hcur := fun d hd => (h.settlements d hd).1
  unfold settlementsOf at hcur ⊢
  by_cases hacc : view.accumulatorsEnabled = true
  · rw [if_pos hacc] at hcur
    rw [if_pos hacc, if_pos hacc, settle, (hview.read (fun _ => .waiting) hcur).1]
    simp [check_of]
  · rw [if_neg hacc, if_neg hacc]
    rfl

/-- The prologue is a root, and executed in the epoch. -/
theorem Arrives.prologue_root {c : TransactionEffects} (hc : c ∈ prologueOf view p) :
    Current view c ∧ c.transactionDigest ∈ rootDigestsOf view p := by
  obtain ⟨-, hdig, hcu⟩ := hview.read (fun _ => .waiting) fun d hd => (h.mem_rootDigests hd).1
  unfold prologueOf at hc
  split at hc
  · have hh : c ∈ rootEffectsOf view p := mem_of_mem_head? (filter_eq_some_iff.1 hc).1
    refine ⟨hcu c hh, ?_⟩
    rw [← hdig]
    exact mem_map_of_mem hh
  · cases hc

variable (hcompl : Complete view before cs) (hagr : Agrees view included ex cs p)
include hcompl hagr

theorem resolvePrologue_ok :
    ∃ ex', resolvePrologue view included ex (rootDigestsOf view p)
        (rootEffectsOf view p) = .ok ((prologueOf view p).toList, ex') ∧
      Agrees view included ex' (cs ++ (prologueOf view p).toList) p ∧
      (∀ d, d ∈ ex' ↔ d ∈ ex ∨ d ∈ digestsOf (prologueOf view p).toList) := by
  have hnone : prologueOf view p = none →
      Agrees view included ex (cs ++ (prologueOf view p).toList) p ∧
      ∀ d, d ∈ ex ↔ d ∈ ex ∨ d ∈ digestsOf (prologueOf view p).toList := by
    intro hnone
    rw [hnone, toList_none, append_nil]
    exact ⟨hagr, fun d => by simp [digestsOf]⟩
  have hroot := fun c => h.prologue_root hview (c := c)
  have harrives := h.prologue
  unfold resolvePrologue
  by_cases hpre : view.prependPrologue = true
  · rw [if_pos hpre, extractConsensusCommitPrologue_ok h hview]
    have hprol : prologueOf view p = headPrologue view p := if_pos hpre
    rw [← hprol]
    cases hp : prologueOf view p with
    | none =>
      rw [hp] at hnone
      exact ⟨ex, rfl, hnone rfl⟩
    | some c =>
      obtain ⟨hcurr, hmem⟩ := hroot c hp
      obtain ⟨hnew, hnewSett, hdeps⟩ := harrives c hp
      have hfresh : c.transactionDigest ∉ digestsOf cs := fun hin =>
        ((hcompl.mem _).1 hin).elim hnew hnewSett
      have hskip : ¬ Skips included ex c.transactionDigest := fun hs =>
        hfresh (hagr.skips _ hs)
      have hrun := completeLoop_singleton hview hcurr hskip fun d hd =>
        hagr.kept d ((hcompl.mem d).2 (.inl (hdeps d hd))) ((Reaches.root hmem).tail hd)
      refine ⟨ex.insert c.transactionDigest (), ?_, ⟨fun d hd => ?_, fun d hd hr => ?_⟩,
        fun d => ?_⟩
      · simp only [hrun, ok_bind, map_cons, map_nil, check_of, pure_ok, toList_some]
      · rw [digestsOf_append]
        rcases hd with hd | hd
        · rcases mem_insert.1 hd with rfl | hd
          · exact mem_append_right _ (mem_singleton.2 rfl)
          · exact mem_append_left _ (hagr.skips d (.inl hd))
        · exact mem_append_left _ (hagr.skips d (.inr hd))
      · rw [digestsOf_append, mem_append] at hd
        rcases hd with hd | hd
        · exact (hagr.kept d hd hr).imp (fun hd => mem_insert.2 (.inr hd)) id
        · rw [mem_singleton.1 hd]
          exact .inl (mem_insert.2 (.inl rfl))
      · rw [or_comm]
        simp [digestsOf]
  · rw [if_neg hpre]
    exact ⟨ex, by rw [prologueOf, if_neg hpre]; rfl, hnone (if_neg hpre)⟩

/-- **A pending checkpoint is resolved.** -/
theorem resolvePending_resolves :
    ∃ effects ex', resolvePending view included ex p = .ok (effects, ex') ∧
      Resolves view cs p effects ∧
      (∀ d, d ∈ ex' → d ∈ ex ∨ d ∈ digestsOf effects) ∧
      ∀ d, d ∈ ex ∨ d ∈ digestsOf effects → d ∈ ex' ∨ d ∈ settlementsOf view p := by
  obtain ⟨hread, hdig, hcurr⟩ := hview.read (fun _ => ResolveError.waiting)
    fun d hd => (h.mem_rootDigests hd).1
  rw [← rootEffectsOf] at hread hdig hcurr
  obtain ⟨existing₁, hprol, hagr₁, hexist₁⟩ := resolvePrologue_ok h hview hcompl hagr
  have hclosed : ∀ d d', d ∈ digestsOf (cs ++ (prologueOf view p).toList) →
      LeadsTo view d d' → d' ∈ digestsOf (cs ++ (prologueOf view p).toList) := by
    intro d d' hd hleads
    rw [digestsOf_append, mem_append] at hd ⊢
    rcases hd with hd | hd
    · exact .inl (hcompl.closed hd hleads)
    · obtain ⟨c, hc, rfl⟩ := mem_digestsOf.1 hd
      exact .inl ((hcompl.mem d').2 (.inl ((h.prologue c (mem_toList.1 hc)).2.2 d' hleads)))
  obtain ⟨unsorted, hrun, hmem⟩ := completeCheckpointEffects_spec hview included existing₁ hcurr
  have hmem' : ∀ e, e ∈ unsorted ↔ Current view e ∧ Reaches view p e.transactionDigest ∧
      e.transactionDigest ∉ digestsOf (cs ++ (prologueOf view p).toList) := fun e => by
    rw [hmem, hdig, finds_iff hclosed hagr₁.skips hagr₁.kept]
  have huns : ∀ e ∈ unsorted, Current view e := fun e he => ((hmem' e).1 he).1
  obtain ⟨body, hsort, -, hbody, -⟩ :=
    causalSort_spec (oneEach_of_current huns) (hview.acyclicOn huns)
  have hsettl : digestsOf ((settlementsOf view p).filterMap view.executedEffects.get?) =
      settlementsOf view p :=
    (hview.read (fun _ => .waiting) fun d hd => (h.settlements d hd).1).2.1
  have hbodyDig : ∀ d, d ∈ digestsOf body ↔ d ∈ digestsOf unsorted := fun d => by
    simp only [mem_digestsOf, hbody]
  refine ⟨_, unsorted.foldl (fun m e => m.insert e.transactionDigest ()) existing₁, ?_,
    ⟨unsorted, body, oneEach_of_current huns, hmem', hsort, rfl⟩, fun d hd => ?_, fun d hd => ?_⟩
  · have hreq : require (causalSort unsorted) ResolveError.outOfFuel = .ok body :=
      require_ok.2 hsort
    simp only [resolvePending, popSettlementRoot_ok h, ok_bind, h.rootDigests, hread, hprol,
      hrun, hreq, h.settle_ok hview, pure_ok]
  · rw [mem_foldl_insert_digest, hexist₁] at hd
    rw [digestsOf_append, digestsOf_append, mem_append, mem_append, hbodyDig]
    tauto
  · rw [digestsOf_append, digestsOf_append, mem_append, mem_append, hbodyDig, hsettl] at hd
    rw [mem_foldl_insert_digest, hexist₁]
    tauto

end Arrival

/-! ## The contents stay complete -/

theorem InOrder.append (h : InOrder view cs)
    (h' : ∀ pre e post, effects = pre ++ e :: post → ∀ d ∈ e.dependencies,
      d ∈ view.executedInCurEpoch → d ∈ digestsOf cs ∨ d ∈ digestsOf pre) :
    InOrder view (cs ++ effects) := by
  intro pre e post hs d hd hcur
  rcases split_append hs with ⟨post', hl⟩ | ⟨pre', rfl, hr⟩
  · exact h pre e post' hl d hd hcur
  · rw [digestsOf_append]
    exact mem_append.2 (h' pre' e post hr d hd hcur)

/-- **What a pending checkpoint adds keeps the contents complete.** -/
theorem Complete.resolves (hview : Executed view) (hcompl : Complete view before contents)
    (h : Arrives view before p) (hres : Resolves view contents p effects) :
    Complete view (before ++ [p]) (contents ++ effects) := by
  obtain ⟨unsorted, body, hone, hmem, hsort, rfl⟩ := hres
  have huns : ∀ e ∈ unsorted, Current view e := fun e he => ((hmem e).1 he).1
  obtain ⟨body', hsort', hnodup, hbody, hafter⟩ := causalSort_spec hone (hview.acyclicOn huns)
  cases hsort.symm.trans hsort'
  obtain ⟨-, hsettl, hsettled⟩ := hview.read (fun _ => .waiting) fun d hd =>
    (h.settlements d hd).1
  generalize (settlementsOf view p).filterMap view.executedEffects.get? = settlement at *
  generalize hpro : (prologueOf view p).toList = prologue at *
  have hprol : ∀ c ∈ prologue, c ∈ prologueOf view p := fun c hc =>
    mem_toList.1 (hpro ▸ hc)
  have hprolNew : ∀ d ∈ digestsOf prologue, d ∉ digestsOf contents := by
    intro d hd hin
    obtain ⟨c, hc, rfl⟩ := mem_digestsOf.1 hd
    obtain ⟨hnew, hnewSett, -⟩ := h.prologue c (hprol c hc)
    exact ((hcompl.mem _).1 hin).elim hnew hnewSett
  have hprolReac : ∀ d ∈ digestsOf prologue, Reaches view p d := by
    intro d hd
    obtain ⟨c, hc, rfl⟩ := mem_digestsOf.1 hd
    exact Reaches.root (h.prologue_root hview (hprol c hc)).2
  have hbodyMem : ∀ d, d ∈ digestsOf body ↔ d ∈ view.executedInCurEpoch ∧ Reaches view p d ∧
      d ∉ digestsOf (contents ++ prologue) := by
    intro d
    rw [mem_digestsOf]
    constructor
    · rintro ⟨e, he, rfl⟩
      obtain ⟨hcur, hrest⟩ := (hmem e).1 ((hbody e).1 he)
      exact ⟨hcur.1, hrest⟩
    · rintro ⟨hcur, hrest⟩
      obtain ⟨e, -, rfl, hcurr⟩ := hview.current hcur
      exact ⟨e, (hbody e).2 ((hmem e).2 ⟨hcurr, hrest⟩), rfl⟩
  have hreacCur : ∀ d, Reaches view p d → d ∈ view.executedInCurEpoch := by
    rintro d ⟨r, hr, hpath⟩
    rcases Relation.ReflTransGen.cases_tail hpath with rfl | ⟨_, _, hlast⟩
    · exact (h.mem_rootDigests hr).1
    · obtain ⟨_, _, _, hcur⟩ := hlast
      exact hcur
  -- before the settlement, the contents are those before and all that `p` leads to
  have hreached : ∀ d, d ∈ digestsOf (contents ++ (prologue ++ body)) ↔
      Reached view (before ++ [p]) d ∨ Settled view before d := by
    intro d
    rw [reached_append, reached_singleton, digestsOf_append, digestsOf_append, mem_append,
      mem_append, hbodyMem, digestsOf_append, mem_append, hcompl.mem d]
    tauto
  have hsettNew : ∀ d ∈ digestsOf settlement, d ∉ digestsOf (contents ++ (prologue ++ body)) := by
    intro d hd hin
    rw [hsettl] at hd
    obtain ⟨-, hnew, hnewSett⟩ := h.settlements d hd
    exact ((hreached d).1 hin).elim hnew hnewSett
  have hprolNodu : (digestsOf prologue).Nodup := by
    rw [← hpro]
    cases prologueOf view p <;> simp [digestsOf]
  have hnodupBody : (digestsOf (contents ++ (prologue ++ body))).Nodup := by
    rw [digestsOf_append, digestsOf_append, ← append_assoc]
    refine (hcompl.nodup.append hprolNodu fun d hd hp => hprolNew d hp hd).append hnodup
      fun d hin hd => ?_
    have hnew := ((hbodyMem d).1 hd).2.2
    rw [digestsOf_append] at hnew
    exact hnew hin
  have horder : InOrder view (contents ++ (prologue ++ body)) := by
    have hfirst : InOrder view (contents ++ prologue) :=
      InOrder.append hcompl.ordered fun pre c post hsplit d hd hcur => by
        have hc : c ∈ prologue := by rw [hsplit]; simp
        have hroot := (h.prologue_root hview (hprol c hc)).1
        exact .inl ((hcompl.mem d).2 (.inl ((h.prologue c (hprol c hc)).2.2 d
          (hroot.leadsTo.2 ⟨hd, hcur⟩))))
    rw [← append_assoc]
    refine hfirst.append fun pre e post hsplit d hd hcur => ?_
    by_cases hin : d ∈ digestsOf (contents ++ prologue)
    · exact .inl hin
    · -- the dependency is new as well, so the sort puts it first
      have he : e ∈ unsorted := (hbody e).1 (by rw [hsplit]; simp)
      obtain ⟨hcurr, hreach, -⟩ := (hmem e).1 he
      obtain ⟨e', -, rfl, hcurr'⟩ := hview.current hcur
      have he' : e' ∈ unsorted :=
        (hmem e').2 ⟨hcurr', hreach.tail (hcurr.leadsTo.2 ⟨hd, hcur⟩), hin⟩
      exact .inr (mem_map_of_mem (hafter pre e post hsplit e' he' (.inl hd)))
  rw [← append_assoc]
  refine ⟨?_, ?_, fun d => ?_, ?_⟩
  · rw [digestsOf_append]
    exact hnodupBody.append (hsettl ▸ h.settlements_nodup) fun d hin hd => hsettNew d hd hin
  · intro e he
    rcases mem_append.1 he with he | he
    · rcases mem_append.1 he with he | he
      · exact hcompl.current e he
      · rcases mem_append.1 he with he | he
        · exact (h.prologue_root hview (hprol e he)).1
        · exact huns e ((hbody e).1 he)
    · exact hsettled e he
  · rw [digestsOf_append, mem_append, hreached, hsettl, settled_append, settled_singleton]
    tauto
  · refine horder.append fun pre e post hsplit d hd hcur => ?_
    have he : e ∈ settlement := by rw [hsplit]; simp
    have hlist : settlementsOf view p = digestsOf pre ++ e.transactionDigest :: digestsOf post := by
      rw [← hsettl, hsplit, digestsOf_append]
      rfl
    rw [hreached]
    rcases h.settlements_after _ _ _ hlist d ((hsettled e he).leadsTo.2 ⟨hd, hcur⟩) with
      hr | hs | hpre
    · exact .inl (.inl hr)
    · exact .inl (.inr hs)
    · exact .inr hpre

/-! ## Groups -/

/-- The pending checkpoints arrive one after the other. -/
def ArriveAll (view : EpochView) (before ps : List PendingCheckpoint) : Prop :=
  ∀ pre p post, ps = pre ++ p :: post → Arrives view (before ++ pre) p

theorem arriveAll_nil : ArriveAll view before [] := fun pre p post h => by simp at h

theorem arriveAll_cons : ArriveAll view before (p :: ps) ↔
    Arrives view before p ∧ ArriveAll view (before ++ [p]) ps := by
  constructor
  · intro h
    refine ⟨by simpa using h [] p ps rfl, fun pre q post hs => ?_⟩
    rw [append_assoc]
    exact h (p :: pre) q post (congrArg (p :: ·) hs)
  · rintro ⟨hp, hps⟩ pre q post hs
    cases pre with
    | nil =>
      cases hs
      rwa [append_nil]
    | cons x pre =>
      cases hs
      have hq := hps pre q post rfl
      rwa [append_assoc] at hq

/-- **The loop over a group.** `done` is the part of the group that is resolved; its settlements are
missing in the record. -/
theorem resolveLoop_resolves (hview : Executed view) {done : List PendingCheckpoint}
    (hcompl : Complete view (before ++ done) cs)
    (harr : ArriveAll view (before ++ done) ps)
    (hapart : ∀ pre p post, ps = pre ++ p :: post → ∀ d, Settled view (done ++ pre) d →
      ¬ Reaches view p d)
    (hskips : ∀ d, Skips included ex d → d ∈ digestsOf cs)
    (hkept : ∀ d ∈ digestsOf cs, Skips included ex d ∨ Settled view done d) :
    ∃ effects, resolveLoop view included ps ex = .ok effects ∧ ResolvesAll view cs ps effects ∧
      Complete view (before ++ done ++ ps) (cs ++ effects) := by
  induction ps generalizing done cs ex with
  | nil => exact ⟨[], rfl, .nil cs, by simpa using hcompl⟩
  | cons p ps ih =>
    obtain ⟨harrives, harr⟩ := arriveAll_cons.1 harr
    have hagr : Agrees view included ex cs p := by
      refine ⟨hskips, fun d hd hr => (hkept d hd).resolve_right fun hs => ?_⟩
      refine hapart [] p ps rfl d ?_ hr
      rwa [append_nil]
    obtain ⟨effects, ex', hrun, hres, hsub, hsup⟩ :=
      resolvePending_resolves harrives hview hcompl hagr
    have hnext : ∀ d, Skips included ex' d → d ∈ digestsOf (cs ++ effects) := by
      intro d hd
      rw [digestsOf_append, mem_append]
      rcases hd with hd | hd
      · exact (hsub d hd).imp_left fun he => hskips d (.inl he)
      · exact .inl (hskips d (.inr hd))
    have hkept' : ∀ d ∈ digestsOf (cs ++ effects),
        Skips included ex' d ∨ Settled view (done ++ [p]) d := by
      intro d hd
      rw [settled_append, settled_singleton]
      rw [digestsOf_append, mem_append] at hd
      rcases hd with hd | hd
      · rcases hkept d hd with (he | hi) | hs
        · exact (hsup d (.inl he)).imp .inl .inr
        · exact .inl (.inr hi)
        · exact .inr (.inl hs)
      · exact (hsup d (.inr hd)).imp .inl .inr
    have hcompl' := hcompl.resolves hview harrives hres
    rw [append_assoc before] at hcompl' harr
    obtain ⟨rest, hrest, hresAll, hcompAll⟩ := ih hcompl' harr
      (fun pre q post hsplit d hd => hapart (p :: pre) q post (by rw [hsplit]; rfl) d (by
        rwa [append_assoc] at hd))
      hnext hkept'
    refine ⟨effects ++ rest, ?_, .cons hres hresAll, ?_⟩
    · simp only [resolveLoop, hrun, ok_bind, hrest, pure_ok]
    · simpa [append_assoc] using hcompAll

/-- **A group is resolved**, if the record of earlier checkpoints is that of the contents. -/
theorem resolveCheckpointTransactions_resolves (hv : Executed view)
    (hc : Complete view before contents) (harr : ArriveAll view before ps)
    (ha : Apart view ps) (hi : ∀ d, d ∈ included ↔ d ∈ digestsOf contents) :
    ∃ effects, resolveCheckpointTransactions view included ps = .ok effects ∧
      ResolvesAll view contents ps effects ∧
      Complete view (before ++ ps) (contents ++ effects) := by
  have hs : ∀ d, Skips included .empty d → d ∈ digestsOf contents := fun d hd =>
    (hi d).1 (hd.resolve_left notMem_empty)
  have hk : ∀ d ∈ digestsOf contents, Skips included .empty d ∨ Settled view [] d := fun d hd =>
    .inl (.inr ((hi d).2 hd))
  rw [← append_nil before] at hc harr ⊢
  exact resolveLoop_resolves hv hc harr ha hs hk

/-! ## Runs -/

/-- A builder at the start of an epoch, and the groups it makes checkpoints of. -/
def builder (view : EpochView) : Machine BuiltContents (List PendingCheckpoint) ResolveError where
  init s := s = ⟨.empty, [], []⟩
  step := makeCheckpoint view

/-- The condition on the groups. -/
def Called (view : EpochView) (s : BuiltContents) (group : List PendingCheckpoint) : Prop :=
  ArriveAll view s.pendings group ∧ Apart view group

/-- What a run keeps. -/
structure Built (view : EpochView) (s : BuiltContents) : Prop where
  complete : Complete view s.pendings s.contents
  included : ∀ d, d ∈ s.included ↔ d ∈ digestsOf s.contents
  resolves : ResolvesAll view [] s.pendings s.contents
  arrive : ArriveAll view [] s.pendings

theorem built_start : Built view ⟨.empty, [], []⟩ where
  complete := ⟨nodup_nil, by simp, fun d => by simp [digestsOf, Reached, Settled],
    fun pre e post h => by simp at h⟩
  included d := by simp [digestsOf]
  resolves := .nil []
  arrive := arriveAll_nil

theorem ArriveAll.append (h : ArriveAll view before ps) (h' : ArriveAll view (before ++ ps) ps') :
    ArriveAll view before (ps ++ ps') := by
  induction ps generalizing before with
  | nil => rwa [append_nil] at h'
  | cons p ps ih =>
    obtain ⟨hp, hps⟩ := arriveAll_cons.1 h
    exact arriveAll_cons.2 ⟨hp, ih hps (by rwa [append_assoc])⟩

/-- **A called step is taken and keeps the invariant.** -/
theorem Built.step (hv : Executed view) (h : Built view s) {group : List PendingCheckpoint}
    (hc : Called view s group) :
    ∃ s', makeCheckpoint view s group = .ok s' ∧ Built view s' ∧
      s'.pendings = s.pendings ++ group := by
  obtain ⟨effects, hrun, hres, hco⟩ := resolveCheckpointTransactions_resolves hv
    h.complete hc.1 hc.2 h.included
  refine ⟨_, by rw [makeCheckpoint, hrun]; rfl, ⟨hco, fun d => ?_, ?_, ?_⟩, rfl⟩
  · rw [mem_foldl_insert_digest, h.included, digestsOf_append, mem_append]
  · exact h.resolves.append (by rwa [nil_append])
  · exact h.arrive.append (by rw [nil_append]; exact hc.1)

theorem apart_singleton (p : PendingCheckpoint) : Apart view [p] := by
  intro pre q post hs d hd
  cases pre with
  | nil =>
    obtain ⟨_, hmem, _⟩ := hd
    cases hmem
  | cons x pre => simp at hs

theorem called_singleton (h : Arrives view s.pendings p) : Called view s [p] :=
  ⟨arriveAll_cons.2 ⟨h, arriveAll_nil⟩, apart_singleton p⟩

/-- The pending checkpoints of a run can be built one by one. -/
theorem Built.one_by_one (hv : Executed view) (ps : List PendingCheckpoint) (h : Built view s)
    (harr : ArriveAll view s.pendings ps) :
    ∃ s', (builder view).run s (ps.map fun p => [p]) = .ok s' ∧ Built view s' ∧
      s'.pendings = s.pendings ++ ps := by
  induction ps generalizing s with
  | nil => exact ⟨s, rfl, h, (append_nil _).symm⟩
  | cons p ps ih =>
    obtain ⟨hp, hps⟩ := arriveAll_cons.1 harr
    obtain ⟨s₁, hs, h₁, hpe⟩ := h.step hv (called_singleton hp)
    obtain ⟨s', hrun, h', hp'⟩ := ih h₁ (by rwa [hpe])
    refine ⟨s', ?_, h', by rw [hp', hpe, append_assoc]; rfl⟩
    exact bind_ok.2 ⟨s₁, hs, hrun⟩

/-- **Checkpoint contents are complete and duplicate-free.** In every run whose groups are apart
they are as if each pending checkpoint were built on its own, and no such group stops the
builder. -/
theorem contents_complete {view : EpochView} (hview : Executed view) {s : BuiltContents}
    (h : (builder view).Reach (Called view) s) :
    Complete view s.pendings s.contents ∧
      (∃ s', (builder view).run ⟨.empty, [], []⟩ (s.pendings.map fun p => [p]) = .ok s' ∧
        s'.pendings = s.pendings ∧ s'.contents = s.contents) ∧
      ∀ group, Called view s group → ∃ s', makeCheckpoint view s group = .ok s' := by
  have hb : Built view s := by
    refine h.invariant (fun s hs => ?_) fun s group s' hi hc hst => ?_
    · cases hs
      exact built_start
    · obtain ⟨t, ht, hb, -⟩ := hi.step hview hc
      cases ht.symm.trans hst
      exact hb
  obtain ⟨s', hrun, hb', hp⟩ := built_start.one_by_one hview s.pendings hb.arrive
  refine ⟨hb.complete, ⟨s', hrun, hp, ?_⟩, fun group hc => ?_⟩
  · have hres := hb'.resolves
    rw [hp] at hres
    exact hres.unique hb.resolves
  · obtain ⟨t, ht, -⟩ := hb.step hview hc
    exact ⟨t, ht⟩

end Resolution

/-! ## A transaction that reads what a settlement wrote -/

/-- A set with the roots that nothing of the epoch leads out of. -/
theorem mem_of_reached {view : EpochView} {ps : List PendingCheckpoint}
    {l : List TransactionDigest} (hro : ∀ p ∈ ps, ∀ r ∈ rootDigestsOf view p, r ∈ l)
    (hc : ∀ d ∈ l, ∀ e ∈ view.executedEffects.get? d, ∀ d' ∈ e.dependencies, d' ∈ l)
    {d : TransactionDigest} (h : Reached view ps d) : d ∈ l := by
  obtain ⟨p, hp, r, hr, hpa⟩ := h
  induction hpa with
  | refl => exact hro p hp r hr
  | tail _ hs ih =>
    obtain ⟨e, he, hd, -⟩ := hs
    exact hc _ ih e he _ hd

namespace Sample

def effects (digest : TransactionDigest) (dependencies : List TransactionDigest)
    (inputs : List InputSharedObject) : TransactionEffects :=
  ⟨digest, digest, 1, 0, inputs, dependencies⟩

/-- The transactions `1` and `2` of two commits, and the settlements `10` and `11` of their
checkpoint heights. Transaction `2` reads the accumulator root `7` that `10` wrote, and `11` writes
it next. -/
def executed : List TransactionEffects :=
  [effects 1 [] [], effects 10 [] [.mutate ⟨7, 1⟩], effects 2 [10] [.readOnly ⟨7, 2⟩],
    effects 11 [10] [.mutate ⟨7, 2⟩]]

def view : EpochView where
  epoch := 1
  accumulatorsEnabled := true
  prependPrologue := true
  executedEffects := executed.foldl (fun m e => m.insert e.transactionDigest e) .empty
  executedInCurEpoch := executed.foldl (fun m e => m.insert e.transactionDigest ()) .empty
  txKeyToDigest _ := none
  transactionKind _ := some .programmableTransaction
  settlementDigests height := if height = 1 then [10] else [11]

def first : PendingCheckpoint := ⟨[.digest 1, .accumulatorSettlement 1 1], 1⟩

def second : PendingCheckpoint := ⟨[.digest 2, .accumulatorSettlement 1 2], 2⟩

variable {d : TransactionDigest}

theorem mem_executed {e : TransactionEffects} (h : view.executedEffects.get? d = some e) :
    e ∈ executed ∧ e.transactionDigest = d := by
  have hone : ∀ a ∈ executed, ∀ b ∈ executed, a.transactionDigest = b.transactionDigest →
      a = b := by
    decide +kernel
  rcases (get?_foldl_insert hone .empty).1 h with ⟨e', he', hd, rfl⟩ | ⟨_, he⟩
  · exact ⟨he', hd⟩
  · cases he

/-- The effects as they are listed have an order. -/
theorem executed_view : Executed view where
  available d hd := by
    rcases mem_foldl_insert.1 hd with ⟨e, he, rfl⟩ | hem
    · have hall : ∀ e ∈ executed, view.executedEffects.get? e.transactionDigest = some e ∧
          e.executedEpoch = view.epoch := by decide +kernel
      exact ⟨e, hall e he⟩
    · exact absurd hem notMem_empty
  keyed d e h := (mem_executed h).2
  acyclic e h := by
    have hr : ∀ a ∈ executed, ∀ b ∈ executed, DependsOn a b →
        executed.findIdx (· = b) < executed.findIdx (· = a) := by decide +kernel
    refine acyclicOn_of_rank hr e (.mono (fun a b hab => ?_) e e h)
    exact ⟨(mem_executed hab.1.2).1, (mem_executed hab.2.1.2).1, hab.2.2⟩

/-- A pending checkpoint without a prologue whose one settlement transaction depends on earlier
settlement transactions only. -/
theorem arrives_of {before : List PendingCheckpoint} {p : PendingCheckpoint}
    (x : TransactionDigest) (l : List TransactionDigest) (hp : p ∈ [first, second])
    (hx : settlementsOf view p = [x] ∧ x ∈ view.executedInCurEpoch)
    (hroots : ∀ q ∈ before ++ [p], ∀ r ∈ rootDigestsOf view q, r ∈ l)
    (hclosed : ∀ d ∈ l, ∀ e ∈ view.executedEffects.get? d, ∀ d' ∈ e.dependencies, d' ∈ l)
    (hnew : x ∉ l ∧ ∀ q ∈ before, x ∉ settlementsOf view q)
    (hdeps : ∀ e ∈ view.executedEffects.get? x, ∀ d ∈ e.dependencies,
      ∃ q ∈ before, d ∈ settlementsOf view q) : Arrives view before p where
  settlementRoot _ := (by decide +kernel : ∀ p ∈ [first, second], p.roots.getLast? =
    some (.accumulatorSettlement view.epoch p.checkpointHeight)) p hp
  roots := (by decide +kernel : ∀ p ∈ [first, second], ∀ key ∈ rootsOf view p,
    ∃ d, rootDigest view key = some d ∧ d ∈ view.executedInCurEpoch ∧
      (view.transactionKind d).isSome) p hp
  prologue c hc := by
    rw [(by decide +kernel : ∀ p ∈ [first, second], prologueOf view p = none) p hp] at hc
    cases hc
  settlements_nodup := hx.1 ▸ nodup_singleton x
  settlements d hd := by
    rw [hx.1] at hd
    cases mem_singleton.1 hd
    refine ⟨hx.2, fun h => hnew.1 (mem_of_reached hroots hclosed h), ?_⟩
    rintro ⟨q, hq, hsettled⟩
    exact hnew.2 q hq hsettled
  settlements_after pre d post hsplit d' hd' := by
    rw [hx.1] at hsplit
    obtain ⟨e, he, hdep, -⟩ := hd'
    have hd : d ∈ [x] := hsplit ▸ mem_append_right _ mem_cons_self
    cases mem_singleton.1 hd
    exact .inr (.inl (hdeps e he d' hdep))

theorem arrives_first : Arrives view [] first :=
  arrives_of 10 [1] (by simp) (by decide +kernel) (by decide +kernel) (by decide +kernel)
    (by decide +kernel) (by decide +kernel)

theorem arrives_second : Arrives view [first] second :=
  arrives_of 11 [1, 2, 10] (by simp) (by decide +kernel) (by decide +kernel) (by decide +kernel)
    (by decide +kernel) (by decide +kernel)

theorem reach_one_by_one : ∃ s, (builder view).Reach (Called view) s ∧
    s.pendings = [first, second] := by
  have hf : Called view ⟨.empty, [], []⟩ [first] := called_singleton arrives_first
  obtain ⟨s, hs, hb, hp⟩ := built_start.step executed_view hf
  have hsec : Called view s [second] := called_singleton (hp ▸ arrives_second)
  obtain ⟨s', hs', _, hp'⟩ := hb.step executed_view hsec
  refine ⟨s', .step [second] (.step [first] (.init rfl) hf hs) hsec hs', ?_⟩
  rw [hp', hp]
  rfl

end Sample

open Sample

theorem contents_complete_sample : ∃ s, (builder view).Reach (Called view) s ∧
    s.pendings = [first, second] ∧
    Complete view [first, second] s.contents := by
  obtain ⟨s, hs, hp⟩ := reach_one_by_one
  have hc := (contents_complete executed_view hs).1
  rw [hp] at hc
  exact ⟨s, hs, hp, hc⟩

/-- **A settlement transaction twice.** Built together, the second pending checkpoint adds the
settlement of the first again; one by one it does not. -/
theorem settlement_twice : Executed view ∧ ArriveAll view [] [first, second] ∧
    (∃ s, (builder view).run ⟨.empty, [], []⟩ [[first, second]] = .ok s ∧
      digestsOf s.contents = [1, 10, 10, 2, 11]) ∧
    ∃ s, (builder view).run ⟨.empty, [], []⟩ [[first], [second]] = .ok s ∧
      digestsOf s.contents = [1, 10, 2, 11] := by
  refine ⟨executed_view, arriveAll_cons.2 ⟨arrives_first, arriveAll_cons.2 ⟨arrives_second,
    arriveAll_nil⟩⟩, ?_, ?_⟩
  · decide +kernel
  · decide +kernel

end OneChain.Checkpoints
