import OneChain.Checkpoints.ResolveTransactions

/-!
# What roots are completed to

`complete_checkpoint_effects` goes from the roots through the dependencies that executed in the
epoch, level by level, and leaves out what is in a checkpoint already. Its records are of three
kinds: what it has seen in this call, what is in this checkpoint, what is in earlier ones.

* `completeLoop_spec` — the loop ends, and has found exactly the transactions to which a path leads
  from a root, past nothing that is left out (`Finds`).
* `completeLoop_singleton` — a root whose dependencies are all left out is the only result.
-/

namespace OneChain.Checkpoints

open Lib Authority List OrdMap

/-! ## Executed effects -/

/-- The effects of a transaction that executed in the epoch. -/
def Current (view : EpochView) (e : TransactionEffects) : Prop :=
  e.transactionDigest ∈ view.executedInCurEpoch ∧
    view.executedEffects.get? e.transactionDigest = some e

/-- The first transaction depends on the second, which executed in the epoch. -/
def LeadsTo (view : EpochView) (d d' : TransactionDigest) : Prop :=
  ∃ e, view.executedEffects.get? d = some e ∧ d' ∈ e.dependencies ∧ d' ∈ view.executedInCurEpoch

/-- The effects of an epoch: those of every transaction executed in it are there, and what happened
in it has an order. -/
structure Executed (view : EpochView) : Prop where
  available : ∀ d ∈ view.executedInCurEpoch,
    ∃ e, view.executedEffects.get? d = some e ∧ e.executedEpoch = view.epoch
  keyed : ∀ d e, view.executedEffects.get? d = some e → e.transactionDigest = d
  acyclic : ∀ e, ¬ Relation.TransGen
    (fun a b => Current view a ∧ Current view b ∧ DependsOn a b) e e

variable {view : EpochView} {inc ex : OrdSet TransactionDigest}

variable {d : TransactionDigest} {e : TransactionEffects} {state : Completion}
  {roots : List TransactionDigest} {before seen : OrdSet TransactionDigest}
  {left : List TransactionEffects}

theorem Executed.current (h : Executed view) (hd : d ∈ view.executedInCurEpoch) :
    ∃ e, view.executedEffects.get? d = some e ∧ e.transactionDigest = d ∧ Current view e := by
  obtain ⟨e, he, -⟩ := h.available d hd
  have hkey := h.keyed d e he
  exact ⟨e, he, hkey, by rwa [hkey], by rwa [hkey]⟩

theorem Current.eq {e' : TransactionEffects} (h : Current view e) (h' : Current view e')
    (hd : e.transactionDigest = e'.transactionDigest) : e = e' := by
  have hget := h.2
  rw [hd, h'.2] at hget
  exact (Option.some.inj hget).symm

theorem Current.leadsTo (h : Current view e) :
    LeadsTo view e.transactionDigest d ↔ d ∈ e.dependencies ∧ d ∈ view.executedInCurEpoch := by
  constructor
  · rintro ⟨e', he', hd⟩
    cases h.2.symm.trans he'
    exact hd
  · exact fun hd => ⟨e, h.2, hd⟩

theorem Executed.executedEpoch (h : Executed view) (he : Current view e) :
    e.executedEpoch = view.epoch := by
  obtain ⟨e', he', hep⟩ := h.available _ he.1
  cases he.2.symm.trans he'
  exact hep

/-- The path from a root of the list, past nothing that is left out. -/
def Finds (view : EpochView) (skip : TransactionDigest → Prop) (roots : List TransactionDigest)
    (d : TransactionDigest) : Prop :=
  ∃ r ∈ roots, ¬ skip r ∧ Relation.ReflTransGen (fun a b => LeadsTo view a b ∧ ¬ skip b) r d

/-- What a call leaves out. -/
def Skips (included existing : OrdSet TransactionDigest) (d : TransactionDigest) : Prop :=
  d ∈ existing ∨ d ∈ included

/-! ## One root -/

theorem visitRoot_skip (h : Skips inc ex e.transactionDigest) : visitRoot view inc ex state e =
      { state with seen := state.seen.insert e.transactionDigest () } := by
  simp only [visitRoot]
  split
  · rfl
  · rename_i he
    rw [if_pos (.inl (h.resolve_left he))]

theorem visitRoot_take (hv : Executed view) (state : Completion) (he : Current view e)
    (h : ¬ Skips inc ex e.transactionDigest) :
    visitRoot view inc ex state e =
      let deps := e.dependencies.foldl (visitDependency view)
        { state with seen := state.seen.insert e.transactionDigest () }
      { deps with results := deps.results ++ [e] } := by
  obtain ⟨hes, hi⟩ := not_or.1 h
  have hep := hv.executedEpoch he
  have hgo : ¬ (e.transactionDigest ∈ inc ∨ e.executedEpoch < view.epoch) := not_or.2 ⟨hi, by omega⟩
  simp only [visitRoot, if_neg hes, if_neg hgo]

theorem foldl_visitDependency (view : EpochView) (deps : List TransactionDigest)
    (state : Completion) :
    (∀ d, d ∈ (deps.foldl (visitDependency view) state).seen ↔
      d ∈ state.seen ∨ d ∈ deps ∧ d ∈ view.executedInCurEpoch) ∧
    (∀ d, d ∈ (deps.foldl (visitDependency view) state).pending ↔
      d ∈ state.pending ∨ d ∈ deps ∧ d ∈ view.executedInCurEpoch ∧ d ∉ state.seen) ∧
    (deps.foldl (visitDependency view) state).results = state.results := by
  induction deps generalizing state with
  | nil => simp
  | cons dep deps ih =>
    obtain ⟨hs, hp, hr⟩ := ih (visitDependency view state dep)
    rw [foldl_cons]
    unfold visitDependency at hs hp hr ⊢
    by_cases hnew : dep ∈ view.executedInCurEpoch ∧ dep ∉ state.seen
    · rw [if_pos hnew] at hs hp hr ⊢
      refine ⟨fun d => ?_, fun d => ?_, hr⟩
      · rw [hs]
        by_cases hd : d = dep
        · subst hd
          simp [hnew.1]
        · simp [hd]
      · rw [hp]
        by_cases hd : d = dep
        · subst hd
          simp [hnew]
        · simp [hd]
    · rw [if_neg hnew] at hs hp hr ⊢
      refine ⟨fun d => ?_, fun d => ?_, hr⟩
      · rw [hs]
        by_cases hd : d = dep
        · subst hd
          tauto
        · simp [hd]
      · rw [hp]
        by_cases hd : d = dep
        · subst hd
          tauto
        · simp [hd]

/-! ## One level -/

def digestsOf (effects : List TransactionEffects) : List TransactionDigest :=
  effects.map (·.transactionDigest)

/-- The state of a level that started with `before` seen and has `left` to visit, for a call with
the roots `roots`. -/
structure Level (view : EpochView) (skip : TransactionDigest → Prop)
    (roots : List TransactionDigest) (before : OrdSet TransactionDigest)
    (left : List TransactionEffects) (state : Completion) : Prop where
  roots_seen : ∀ r ∈ roots, r ∈ state.seen ∨ r ∈ digestsOf left
  seen : ∀ d ∈ state.seen, skip d ∨ d ∈ digestsOf state.results ∨ d ∈ state.pending ∨
    d ∈ digestsOf left
  closed : ∀ e ∈ state.results, ∀ d, LeadsTo view e.transactionDigest d → d ∈ state.seen
  found : ∀ e ∈ state.results, Current view e ∧ Finds view skip roots e.transactionDigest
  left_found : ∀ e ∈ left, Current view e ∧
    (¬ skip e.transactionDigest → Finds view skip roots e.transactionDigest)
  pending_found : ∀ d ∈ state.pending, d ∈ view.executedInCurEpoch ∧
    (¬ skip d → Finds view skip roots d)
  pending_seen : ∀ d ∈ state.pending, d ∈ state.seen ∧ d ∉ before
  before_seen : ∀ d ∈ before, d ∈ state.seen

theorem Finds.tail {skip : TransactionDigest → Prop} {d' : TransactionDigest}
    (h : Finds view skip roots d) (hd : LeadsTo view d d') (hsk : ¬ skip d') :
    Finds view skip roots d' := by
  obtain ⟨r, hr, hs, hp⟩ := h
  exact ⟨r, hr, hs, hp.tail ⟨hd, hsk⟩⟩

section

variable (h : Level view (Skips inc ex) roots before (e :: left) state)
include h

theorem Level.skip (hsk : Skips inc ex e.transactionDigest) :
    Level view (Skips inc ex) roots before left
      { state with seen := state.seen.insert e.transactionDigest () } := by
  refine ⟨fun r hr => ?_, fun d hd => ?_, fun e' he' d hd => ?_, h.found, fun e' he' => ?_,
    h.pending_found, fun d hd => ?_, fun d hd => ?_⟩
  · rcases h.roots_seen r hr with hse | hle
    · exact .inl (mem_insert.2 (.inr hse))
    · rcases mem_cons.1 hle with rfl | hle
      · exact .inl (mem_insert.2 (.inl rfl))
      · exact .inr hle
  · rcases mem_insert.1 hd with rfl | hd
    · exact .inl hsk
    · rcases h.seen d hd with hs | hr | hp | hl
      · exact .inl hs
      · exact .inr (.inl hr)
      · exact .inr (.inr (.inl hp))
      · rcases mem_cons.1 hl with rfl | hl
        · exact .inl hsk
        · exact .inr (.inr (.inr hl))
  · exact mem_insert.2 (.inr (h.closed e' he' d hd))
  · exact h.left_found e' (mem_cons_of_mem _ he')
  · exact ⟨mem_insert.2 (.inr (h.pending_seen d hd).1), (h.pending_seen d hd).2⟩
  · exact mem_insert.2 (.inr (h.before_seen d hd))

theorem Level.take {deps : Completion} (hskip : ¬ Skips inc ex e.transactionDigest)
    (hdeps : deps = e.dependencies.foldl (visitDependency view)
      { state with seen := state.seen.insert e.transactionDigest () }) :
    Level view (Skips inc ex) roots before left { deps with results := deps.results ++ [e] } := by
  obtain ⟨hcurr, hfinds⟩ := h.left_found e mem_cons_self
  obtain ⟨hseen, hpend, hresults⟩ := foldl_visitDependency view e.dependencies
    { state with seen := state.seen.insert e.transactionDigest () }
  rw [← hdeps] at hseen hpend hresults
  simp only [mem_insert] at hseen hpend hresults
  have hself : e.transactionDigest ∈ digestsOf (state.results ++ [e]) := by simp [digestsOf]
  have hold : ∀ d ∈ digestsOf state.results, d ∈ digestsOf (state.results ++ [e]) := fun d hd => by
    rw [digestsOf, map_append]
    exact mem_append_left _ hd
  rw [hresults]
  refine ⟨fun r hr => ?_, fun d hd => ?_, fun e' he' d hd => ?_, ?_, fun e' he' => ?_,
    fun d hd => ?_, fun d hd => ?_, fun d hd => (hseen d).2 (.inl (.inr (h.before_seen d hd)))⟩
  · rcases h.roots_seen r hr with hs | hl
    · exact .inl ((hseen r).2 (.inl (.inr hs)))
    · rcases mem_cons.1 hl with rfl | hl
      · exact .inl ((hseen _).2 (.inl (.inl rfl)))
      · exact .inr hl
  · by_cases hp : d ∈ deps.pending
    · exact .inr (.inr (.inl hp))
    · -- what was seen before is where it was, and what is new waits
      have hsame : d = e.transactionDigest ∨ d ∈ state.seen := by
        rcases (hseen d).1 hd with hs | ⟨hdep, hcur⟩
        · exact hs
        · by_contra hnew
          exact hp ((hpend d).2 (.inr ⟨hdep, hcur, hnew⟩))
      rcases hsame with rfl | hs
      · exact .inr (.inl hself)
      · rcases h.seen d hs with hk | hr | hp' | hl
        · exact .inl hk
        · exact .inr (.inl (hold d hr))
        · exact absurd ((hpend d).2 (.inl hp')) hp
        · rcases mem_cons.1 hl with rfl | hl
          · exact .inr (.inl hself)
          · exact .inr (.inr (.inr hl))
  · rcases mem_append.1 he' with he' | he'
    · exact (hseen d).2 (.inl (.inr (h.closed e' he' d hd)))
    · cases mem_singleton.1 he'
      exact (hseen d).2 (.inr (hcurr.leadsTo.1 hd))
  · rw [forall_mem_append, forall_mem_singleton]
    exact ⟨h.found, hcurr, hfinds hskip⟩
  · exact h.left_found e' (mem_cons_of_mem _ he')
  · rcases (hpend d).1 hd with hp | ⟨hdep, hcur, -⟩
    · exact h.pending_found d hp
    · exact ⟨hcur, fun hs => (hfinds hskip).tail (hcurr.leadsTo.2 ⟨hdep, hcur⟩) hs⟩
  · rcases (hpend d).1 hd with hp | ⟨hdep, hcur, hnew⟩
    · exact ⟨(hseen d).2 (.inl (.inr (h.pending_seen d hp).1)), (h.pending_seen d hp).2⟩
    · exact ⟨(hseen d).2 (.inr ⟨hdep, hcur⟩), fun hb => hnew (.inr (h.before_seen d hb))⟩

end

/-- **A level visits all its roots.** -/
theorem Level.foldl (hv : Executed view) (h : Level view (Skips inc ex) roots before left state) :
    Level view (Skips inc ex) roots before [] (left.foldl (visitRoot view inc ex) state) := by
  induction left generalizing state with
  | nil => exact h
  | cons e left ih =>
    rw [foldl_cons]
    by_cases hs : Skips inc ex e.transactionDigest
    · rw [visitRoot_skip hs]
      exact ih (h.skip hs)
    · rw [visitRoot_take hv state (h.left_found e mem_cons_self).1 hs]
      exact ih (h.take hs rfl)

/-! ## The loop -/

/-- Nothing waits: the results are what can be found. -/
theorem Level.mem_results (h : Level view (Skips inc ex) roots before [] state)
    (hdone : ∀ d, d ∉ state.pending) (e : TransactionEffects) :
    e ∈ state.results ↔ Current view e ∧ Finds view (Skips inc ex) roots e.transactionDigest := by
  refine ⟨h.found e, fun ⟨hcurr, r, hr, hskip, hpath⟩ => ?_⟩
  have hin : ∀ d, d ∈ state.seen → ¬ Skips inc ex d → d ∈ digestsOf state.results := by
    intro d hd hskip
    rcases h.seen d hd with hk | hres | hp | hl
    · exact absurd hk hskip
    · exact hres
    · exact absurd hp (hdone d)
    · cases hl
  have hall : ∀ d, Relation.ReflTransGen (fun a b => LeadsTo view a b ∧ ¬ Skips inc ex b) r d →
      d ∈ digestsOf state.results := by
    intro d hd
    induction hd with
    | refl =>
      refine hin r ?_ hskip
      rcases h.roots_seen r hr with hs | hl
      · exact hs
      · cases hl
    | tail _ hstep ih =>
      obtain ⟨e', he', rfl⟩ := mem_map.1 ih
      exact hin _ (h.closed e' he' _ hstep.1) hstep.2
  obtain ⟨e', he', hdig⟩ := mem_map.1 (hall _ hpath)
  rwa [hcurr.eq (h.found e' he').1 hdig.symm]

/-- The transactions of the epoch that were not seen. -/
def unseen (view : EpochView) (seen : OrdSet TransactionDigest) : OrdSet TransactionDigest :=
  view.executedInCurEpoch.filter fun d _ => d ∉ seen

theorem mem_unseen : d ∈ unseen view seen ↔ d ∈ view.executedInCurEpoch ∧ d ∉ seen := by
  rw [unseen, mem_filter_keys, decide_eq_true_iff]

theorem length_unseen_lt (hbef : ∀ d ∈ before, d ∈ seen) (hcur : d ∈ view.executedInCurEpoch)
    (hs : d ∈ seen) (hnew : d ∉ before) :
    (unseen view seen).entries.length < (unseen view before).entries.length := by
  refine length_lt (fun j hj => ?_) (mem_unseen.2 ⟨hcur, hnew⟩)
  obtain ⟨hjc, hjs⟩ := mem_unseen.1 hj
  exact ⟨mem_unseen.2 ⟨hjc, fun hb => hjs (hbef j hb)⟩, fun heq => hjs (heq ▸ hs)⟩

/-- Transactions of the epoch are found, with their effects. -/
theorem Executed.read (hv : Executed view) (error : TransactionDigest → ResolveError)
    {digests : List TransactionDigest} (h : ∀ d ∈ digests, d ∈ view.executedInCurEpoch) :
    (digests.mapM fun digest => require (view.executedEffects.get? digest) (error digest)) =
        .ok (digests.filterMap view.executedEffects.get?) ∧
      digestsOf (digests.filterMap view.executedEffects.get?) = digests ∧
      ∀ e ∈ digests.filterMap view.executedEffects.get?, Current view e := by
  refine ⟨mapM_require fun d hd => ?_, ?_, fun e he => ?_⟩
  · obtain ⟨e, he, -⟩ := hv.available d (h d hd)
    rw [he]
    rfl
  · have hk : ∀ d ∈ digests, (view.executedEffects.get? d).map (·.transactionDigest) =
        some d := fun d hd => by
      obtain ⟨e, he, hkey, -⟩ := hv.current (h d hd)
      rw [he, Option.map_some, hkey]
    rw [digestsOf, map_filterMap, filterMap_congr hk, filterMap_some]
  · obtain ⟨d, hd, hget⟩ := mem_filterMap.1 he
    obtain ⟨e', he', -, hc⟩ := hv.current (h d hd)
    cases hget.symm.trans he'
    exact hc

/-- **The loop finds what can be found.** -/
theorem completeLoop_spec (hview : Executed view) {fuel : ℕ} {results : List TransactionEffects}
    (h : Level view (Skips inc ex) roots seen left ⟨seen, .empty, results⟩)
    (hfuel : (unseen view seen).entries.length < fuel) :
    ∃ results', completeLoop view inc ex fuel seen results left = .ok results' ∧ ∀ e, e ∈ results' ↔
        Current view e ∧ Finds view (Skips inc ex) roots e.transactionDigest := by
  induction fuel generalizing seen results left with
  | zero => cases hfuel
  | succ fuel ih =>
    have hlevel := h.foldl hview
    generalize hstate : left.foldl (visitRoot view inc ex) ⟨seen, .empty, results⟩ = state at hlevel
    simp only [completeLoop, hstate]
    by_cases hdone : state.pending.keys = []
    · rw [if_pos hdone]
      refine ⟨state.results, rfl, hlevel.mem_results fun d hd => ?_⟩
      rw [← OrdMap.mem_keys, hdone] at hd
      cases hd
    · obtain ⟨hload, hkeys, hcurr⟩ := hview.read ResolveError.effectsNotFound fun d hd =>
        (hlevel.pending_found d (OrdMap.mem_keys.1 hd)).1
      generalize state.pending.keys.filterMap view.executedEffects.get? = loaded at *
      have hmem : ∀ d, d ∈ digestsOf loaded ↔ d ∈ state.pending := fun d => by
        rw [hkeys, OrdMap.mem_keys]
      obtain ⟨d, hd⟩ := exists_mem_of_ne_nil _ hdone
      rw [OrdMap.mem_keys] at hd
      have hlt := length_unseen_lt hlevel.before_seen (hlevel.pending_found d hd).1
        (hlevel.pending_seen d hd).1 (hlevel.pending_seen d hd).2
      have hnext : Level view (Skips inc ex) roots state.seen loaded
          ⟨state.seen, .empty, state.results⟩ := by
        refine ⟨fun r hr => ?_, fun d hd => ?_, hlevel.closed, hlevel.found, fun e he => ?_,
          fun d hd => absurd hd notMem_empty, fun d hd => absurd hd notMem_empty, fun d hd => hd⟩
        · exact .inl ((hlevel.roots_seen r hr).resolve_right (by simp [digestsOf]))
        · rcases hlevel.seen d hd with hk | hr | hp | hl
          · exact .inl hk
          · exact .inr (.inl hr)
          · exact .inr (.inr (.inr ((hmem d).2 hp)))
          · cases hl
        · exact ⟨hcurr e he, (hlevel.pending_found _ ((hmem _).1 (mem_map_of_mem he))).2⟩
      obtain ⟨results', hrun, hresults⟩ := ih hnext (by omega)
      refine ⟨results', ?_, hresults⟩
      rw [if_neg hdone, hload, ok_bind, hrun]

/-- `complete_checkpoint_effects` of roots that executed in the epoch. -/
theorem completeCheckpointEffects_spec (hv : Executed view) (inc ex : OrdSet TransactionDigest)
    {roots : List TransactionEffects} (hro : ∀ e ∈ roots, Current view e) :
    ∃ results, completeCheckpointEffects view inc ex roots =
        .ok (results, results.foldl (fun m e => m.insert e.transactionDigest ()) ex) ∧
      ∀ e, e ∈ results ↔ Current view e ∧
        Finds view (Skips inc ex) (digestsOf roots) e.transactionDigest := by
  have hs : Level view (Skips inc ex) (digestsOf roots) .empty roots ⟨.empty, .empty, []⟩ :=
    ⟨fun r hr => .inr hr, fun d hd => absurd hd notMem_empty, by simp, by simp,
      fun e he => ⟨hro e he, fun hsk => ⟨_, mem_map_of_mem he, hsk, .refl⟩⟩,
      fun d hd => absurd hd notMem_empty, fun d hd => absurd hd notMem_empty, fun d hd => hd⟩
  have hf : (unseen view .empty).entries.length < view.executedInCurEpoch.entries.length + 1 :=
    Nat.lt_succ_of_le (length_filter_le _ _)
  obtain ⟨results, hrun, hre⟩ := completeLoop_spec hv hs hf
  refine ⟨results, ?_, hre⟩
  rw [completeCheckpointEffects, hrun]
  rfl

/-! ## A single root -/

theorem foldl_visitRoot_skip (h : ∀ e ∈ left, Skips inc ex e.transactionDigest) :
    (left.foldl (visitRoot view inc ex) state).pending = state.pending ∧
      (left.foldl (visitRoot view inc ex) state).results = state.results := by
  induction left generalizing state with
  | nil => exact ⟨rfl, rfl⟩
  | cons e left ih =>
    rw [forall_mem_cons] at h
    rw [foldl_cons, visitRoot_skip h.1]
    exact ih h.2

theorem completeLoop_singleton (hview : Executed view) (hcurr : Current view e)
    (hskip : ¬ Skips inc ex e.transactionDigest)
    (hdeps : ∀ d, LeadsTo view e.transactionDigest d → Skips inc ex d) :
    completeCheckpointEffects view inc ex [e] = .ok ([e], ex.insert e.transactionDigest ()) := by
  obtain ⟨hseen, hpend, hresults⟩ := foldl_visitDependency view e.dependencies
    ⟨(empty : OrdSet _).insert e.transactionDigest (), .empty, []⟩
  have hfirst := visitRoot_take hview ⟨.empty, .empty, []⟩ hcurr hskip
  have hloop : completeLoop view inc ex
      (view.executedInCurEpoch.entries.length + 1) .empty [] [e] = .ok [e] := by
    simp only [completeLoop, foldl_cons, foldl_nil, hfirst]
    generalize e.dependencies.foldl (visitDependency view)
      ⟨(empty : OrdSet _).insert e.transactionDigest (), .empty, []⟩ = deps at *
    have hnew : ∀ d ∈ deps.pending, d ∈ view.executedInCurEpoch ∧ Skips inc ex d := by
      intro d hd
      rcases (hpend d).1 hd with hempty | ⟨hdep, hcur, -⟩
      · exact absurd hempty notMem_empty
      · exact ⟨hcur, hdeps d (hcurr.leadsTo.2 ⟨hdep, hcur⟩)⟩
    by_cases hdone : deps.pending.keys = []
    · rw [if_pos hdone, hresults]
      rfl
    · obtain ⟨hload, hkeys, -⟩ := hview.read ResolveError.effectsNotFound fun d hd =>
        (hnew d (OrdMap.mem_keys.1 hd)).1
      generalize deps.pending.keys.filterMap view.executedEffects.get? = loaded at *
      obtain ⟨d, hd⟩ := exists_mem_of_ne_nil _ hdone
      have hcur := (hnew d (OrdMap.mem_keys.1 hd)).1
      have hlength : view.executedInCurEpoch.entries.length ≠ 0 := fun h0 =>
        entries_eq_nil.1 (eq_nil_of_length_eq_zero h0) d hcur
      obtain ⟨n, hn⟩ := Nat.exists_eq_succ_of_ne_zero hlength
      -- the second level has only what is left out
      have hskips : ∀ e' ∈ loaded, Skips inc ex e'.transactionDigest := fun e' he' =>
        (hnew _ (OrdMap.mem_keys.1 (hkeys ▸ mem_map_of_mem he'))).2
      rw [if_neg hdone, hload, ok_bind, hn, hresults]
      simp only [completeLoop, foldl_visitRoot_skip hskips]
      rfl
  rw [completeCheckpointEffects, hloop]
  rfl

end OneChain.Checkpoints
