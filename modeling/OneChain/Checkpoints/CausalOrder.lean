import OneChain.Authority.Transactions

/-!
# Causal order

`causal_order.rs`: the effects that go into a checkpoint are sorted so that each transaction comes
after the transactions it depends on, and after those that read a version of a shared object which
it overwrites. The sort walks the dependencies depth first, with its stack on the heap; among the
transactions that are left, it starts from the one with the least digest.

* `causalSort_spec` — if the dependencies have no cycle, the sort ends and lists every transaction
  once, after what it depends on.
* `causalSort_perm` — the result is a permutation, and does not depend on the order of the input.
-/

namespace OneChain.Checkpoints

open Lib Authority List OrdMap

/-! ## Readers and overwriters -/

/-- The version that an input reads without writing the next one. -/
def readVersion : InputSharedObject → Option ObjectKey
  | .readOnly object => some object
  | .readConsensusStreamEnded id version => some ⟨id, version⟩
  | .mutate _ | .mutateConsensusStreamEnded .. | .cancelled .. => none

/-- The version that an input overwrites. -/
def overwrittenVersion : InputSharedObject → Option ObjectKey
  | .mutate object => some object
  | .mutateConsensusStreamEnded id version => some ⟨id, version⟩
  | .readOnly _ | .readConsensusStreamEnded .. | .cancelled .. => none

/-- Two maps from a key to what was pushed under it, each as the list of pushes. -/
structure RWLockDependencyBuilder where
  readVersions : List (ObjectKey × TransactionDigest)
  overwriteVersions : List (TransactionDigest × ObjectKey)

namespace RWLockDependencyBuilder

def fromEffects (effects : List TransactionEffects) : RWLockDependencyBuilder where
  readVersions := effects.flatMap fun e =>
    (e.inputSharedObjects.filterMap readVersion).map (·, e.transactionDigest)
  overwriteVersions := effects.flatMap fun e =>
    (e.inputSharedObjects.filterMap overwrittenVersion).map (e.transactionDigest, ·)

variable (builder : RWLockDependencyBuilder)

def overwrites (digest : TransactionDigest) : List ObjectKey :=
  (builder.overwriteVersions.filter (·.1 = digest)).map Prod.snd

def reads (key : ObjectKey) : List TransactionDigest :=
  (builder.readVersions.filter (·.1 = key)).map Prod.snd

/-- `add_dependencies_for`. -/
def addDependenciesFor (digest : TransactionDigest)
    (v : OrdSet TransactionDigest) : OrdSet TransactionDigest :=
  ((builder.overwrites digest).flatMap builder.reads).foldl (fun v dep => v.insert dep ()) v

end RWLockDependencyBuilder

/-! ## The sort -/

structure TransactionDependencies where
  digest : TransactionDigest
  dependencies : OrdSet TransactionDigest
  effects : TransactionEffects

def TransactionDependencies.fromEffects (builder : RWLockDependencyBuilder)
    (effects : TransactionEffects) : TransactionDependencies where
  digest := effects.transactionDigest
  dependencies := builder.addDependenciesFor effects.transactionDigest
    (effects.dependencies.foldl (fun v dep => v.insert dep ()) .empty)
  effects := effects

structure CausalOrder where
  notSeen : OrdMap TransactionDigest TransactionDependencies
  output : List TransactionEffects

/-- A transaction whose dependencies are being looked at, the next one first. -/
structure InsertState where
  dependencies : List TransactionDigest
  transaction : TransactionDependencies

/-- The greatest dependency is popped first. -/
def InsertState.new (transaction : TransactionDependencies) : InsertState :=
  ⟨transaction.dependencies.keys.reverse, transaction⟩

/-- The first dependency that was not seen, and those after it. -/
def nextUnseen (notSeen : OrdMap TransactionDigest TransactionDependencies) :
    List TransactionDigest → Option (TransactionDependencies × List TransactionDigest)
  | [] => none
  | dep :: deps =>
    match notSeen.get? dep with
    | some depTransaction => some (depTransaction, deps)
    | none => nextUnseen notSeen deps

namespace CausalOrder

def fromVec (effects : List TransactionEffects) : CausalOrder where
  notSeen := effects.foldl (fun m e => m.insert e.transactionDigest
    (TransactionDependencies.fromEffects (.fromEffects effects) e)) .empty
  output := []

/-- The loop of `insert`, on the stack of states with the last one first. A state that finds no
dependency is done, and its transaction is output. -/
def insertLoop : ℕ → List InsertState → CausalOrder → Option CausalOrder
  | _, [], order => some order
  | 0, _ :: _, _ => none
  | fuel + 1, state :: states, order =>
    match nextUnseen order.notSeen state.dependencies with
    | some (depTransaction, deps) =>
      insertLoop fuel (.new depTransaction :: { state with dependencies := deps } :: states)
        { order with notSeen := order.notSeen.erase depTransaction.digest }
    | none =>
      insertLoop fuel states { order with output := order.output ++ [state.transaction.effects] }

/-- Every round takes a transaction out of `notSeen` or a state off the stack. -/
def insert (order : CausalOrder) (transaction : TransactionDependencies) : Option CausalOrder :=
  insertLoop (2 * order.notSeen.entries.length + 1) [.new transaction] order

/-- The loop of `causal_sort`. -/
def sortLoop : ℕ → CausalOrder → Option CausalOrder
  | fuel, order =>
    match order.notSeen.first? with
    | none => some order
    | some (digest, transaction) =>
      match fuel with
      | 0 => none
      | fuel + 1 => do
        let order ← insert { order with notSeen := order.notSeen.erase digest } transaction
        sortLoop fuel order

end CausalOrder

def causalSort (effects : List TransactionEffects) : Option (List TransactionEffects) :=
  let order := CausalOrder.fromVec effects
  (CausalOrder.sortLoop order.notSeen.entries.length order).map (·.output)

/-! ## The walk -/

open CausalOrder

section Walk

variable (all : OrdMap TransactionDigest TransactionDependencies)

/-- The first transaction depends on the second, which is also to be sorted. -/
def Depends (d d' : TransactionDigest) : Prop :=
  ∃ t, all.get? d = some t ∧ d' ∈ t.dependencies ∧ d' ∈ all

/-- No transaction leads back to itself. -/
def Acyclic : Prop := ∀ d, ¬ Relation.TransGen (Depends all) d d

/-- Each transaction comes after what it depends on. -/
def Ordered (output : List TransactionEffects) : Prop :=
  ∀ pre e post, output = pre ++ e :: post →
    ∀ d, Depends all e.transactionDigest d → d ∈ pre.map (·.transactionDigest)

/-- The entries are kept under their digests. -/
def Keyed : Prop := ∀ d t, all.get? d = some t → t.digest = d ∧ t.effects.transactionDigest = d

variable {all} {notSeen : OrdMap TransactionDigest TransactionDependencies}
  {deps : List TransactionDigest} {t : TransactionDependencies} {d : TransactionDigest}

theorem ordered_append {output : List TransactionEffects} {e : TransactionEffects}
    (h : Ordered all output)
    (he : ∀ d, Depends all e.transactionDigest d → d ∈ output.map (·.transactionDigest)) :
    Ordered all (output ++ [e]) := by
  intro pre e' post hs d hd
  rcases eq_nil_or_concat post with rfl | ⟨post, last, rfl⟩
  · obtain ⟨rfl, hl⟩ := append_inj' hs rfl
    cases hl
    exact he d hd
  · rw [concat_eq_append, ← cons_append, ← append_assoc] at hs
    exact h pre e' post (append_inj' hs rfl).1 d hd

theorem nextUnseen_eq_none (h : nextUnseen notSeen deps = none) : ∀ d ∈ deps, d ∉ notSeen := by
  induction deps with
  | nil => simp
  | cons dep deps ih =>
    rw [nextUnseen] at h
    split at h
    · cases h
    · rename_i hdep
      rw [forall_mem_cons]
      exact ⟨notMem_iff.2 hdep, ih h⟩

theorem nextUnseen_eq_some {rest : List TransactionDigest}
    (h : nextUnseen notSeen deps = some (t, rest)) :
    ∃ skipped d, deps = skipped ++ d :: rest ∧ notSeen.get? d = some t ∧
      ∀ d ∈ skipped, d ∉ notSeen := by
  induction deps with
  | nil => cases h
  | cons dep deps ih =>
    rw [nextUnseen] at h
    split at h
    · rename_i t' hdep
      cases h
      exact ⟨[], dep, rfl, hdep, by simp⟩
    · rename_i hdep
      obtain ⟨skipped, d, rfl, hget, hs⟩ := ih h
      refine ⟨dep :: skipped, d, rfl, hget, ?_⟩
      rw [forall_mem_cons]
      exact ⟨notMem_iff.2 hdep, hs⟩

def stackDigests (states : List InsertState) : List TransactionDigest :=
  states.map (·.transaction.digest)

def outputDigests (order : CausalOrder) : List TransactionDigest :=
  order.output.map (·.transactionDigest)

/-- What a state waits for: the dependencies still to be looked at, and the one walked into. -/
def Waits (all : OrdMap TransactionDigest TransactionDependencies) (order : CausalOrder) :
    Option TransactionDigest → List InsertState → Prop
  | _, [] => True
  | above, state :: states =>
    (∀ d, Depends all state.transaction.digest d →
      d ∈ state.dependencies ∨ d ∈ outputDigests order ∨ above = some d) ∧
    Waits all order (some state.transaction.digest) states

/-- The invariant of the walk: every transaction is not seen, on the stack or output. -/
structure Walk (all : OrdMap TransactionDigest TransactionDependencies) (states : List InsertState)
    (order : CausalOrder) : Prop where
  perm : (order.notSeen.keys ++ (stackDigests states ++ outputDigests order)).Perm all.keys
  notSeen : ∀ d t, order.notSeen.get? d = some t → all.get? d = some t
  stack : ∀ s ∈ states, all.get? s.transaction.digest = some s.transaction
  output : ∀ e ∈ order.output, ∃ t, all.get? e.transactionDigest = some t ∧ t.effects = e
  ordered : Ordered all order.output
  chain : states.Pairwise fun a b =>
    Relation.TransGen (Depends all) b.transaction.digest a.transaction.digest
  waits : Waits all order none states

variable {order : CausalOrder} {state : InsertState} {states : List InsertState}

theorem Walk.mem_all (h : Walk all states order) :
    d ∈ all ↔ d ∈ order.notSeen ∨ d ∈ stackDigests states ∨ d ∈ outputDigests order := by
  rw [← OrdMap.mem_keys, ← h.perm.mem_iff, mem_append, mem_append, OrdMap.mem_keys]

/-- A dependency of the transaction on top that was seen has been output: on the stack it would
close a cycle. -/
theorem Walk.seen_output (ha : Acyclic all) (h : Walk all (state :: states) order)
    {d : TransactionDigest} (hd : Depends all state.transaction.digest d)
    (hse : d ∉ order.notSeen) : d ∈ outputDigests order := by
  obtain ⟨t, ht, hmem, hall⟩ := hd
  rcases h.mem_all.1 hall with hn | hs | ho
  · exact absurd hn hse
  · exfalso
    have he : Depends all state.transaction.digest d := ⟨t, ht, hmem, hall⟩
    obtain ⟨s, hst, rfl⟩ := mem_map.1 hs
    rcases mem_cons.1 hst with rfl | hb
    · exact ha _ (.single he)
    · exact ha _ (((pairwise_cons.1 h.chain).1 s hb).tail he)
  · exact ho

theorem Waits.mono {order' : CausalOrder} {above above' : Option TransactionDigest}
    (h : Waits all order above states)
    (hout : ∀ d ∈ outputDigests order, d ∈ outputDigests order')
    (hab : ∀ d, above = some d → d ∈ outputDigests order' ∨ above' = some d) :
    Waits all order' above' states := by
  induction states generalizing above above' with
  | nil => trivial
  | cons state states ih =>
    refine ⟨fun d hd => ?_, ih h.2 fun d hd => .inr hd⟩
    rcases h.1 d hd with hde | ho | ha
    · exact .inl hde
    · exact .inr (.inl (hout d ho))
    · exact .inr (hab d ha)

theorem mem_new_dependencies : d ∈ (InsertState.new t).dependencies ↔ d ∈ t.dependencies := by
  rw [InsertState.new, mem_reverse, OrdMap.mem_keys]

/-- **Walking into a dependency.** -/
theorem Walk.into (hkeyed : Keyed all) (hacyclic : Acyclic all)
    (h : Walk all (state :: states) order)
    (hnext : nextUnseen order.notSeen state.dependencies = some (t, deps))
    (hstate : ∀ d ∈ state.dependencies, d ∈ state.transaction.dependencies) :
    Walk all (.new t :: { state with dependencies := deps } :: states)
      { order with notSeen := order.notSeen.erase t.digest } := by
  obtain ⟨skipped, d, hdeps, hget, hskipped⟩ := nextUnseen_eq_some hnext
  have hall := h.notSeen d t hget
  obtain ⟨rfl, -⟩ := hkeyed d t hall
  have hmem : t.digest ∈ order.notSeen := mem_iff.2 ⟨t, hget⟩
  have hedge : Depends all state.transaction.digest t.digest :=
    ⟨state.transaction, h.stack state mem_cons_self,
      hstate _ (hdeps ▸ mem_append_right _ mem_cons_self), mem_iff.2 ⟨t, hall⟩⟩
  obtain ⟨hchain, hchains⟩ := pairwise_cons.1 h.chain
  refine ⟨?_, fun d' t' hget' => ?_, ?_, h.output, h.ordered, ?_, ⟨fun d' hd' => ?_, ?_⟩⟩
  · exact (perm_middle.trans ((keys_perm_erase hmem).append_right _)).trans h.perm
  · exact h.notSeen d' t' (get?_of_erase hget')
  · rw [forall_mem_cons, forall_mem_cons]
    exact ⟨hall, h.stack state mem_cons_self, fun s hs => h.stack s (mem_cons_of_mem _ hs)⟩
  · refine pairwise_cons.2 ⟨?_, pairwise_cons.2 ⟨hchain, hchains⟩⟩
    rw [forall_mem_cons]
    exact ⟨.single hedge, fun s hs => (hchain s hs).tail hedge⟩
  · obtain ⟨t', ht', hd', -⟩ := hd'
    cases (hall.symm.trans ht' : some t = some t')
    exact .inl (mem_new_dependencies.2 hd')
  · refine ⟨fun d' hd' => ?_, h.waits.2.mono (fun _ ho => ho) fun _ ha => .inr ha⟩
    rcases h.waits.1 d' hd' with hin | ho | ha
    · rw [hdeps, mem_append, mem_cons] at hin
      rcases hin with hskip | rfl | hrest
      · exact .inr (.inl (h.seen_output hacyclic hd' (hskipped d' hskip)))
      · exact .inr (.inr rfl)
      · exact .inl hrest
    · exact .inr (.inl ho)
    · cases ha

/-- **A transaction without unseen dependencies is output.** -/
theorem Walk.done (hk : Keyed all) (hac : Acyclic all) (h : Walk all (state :: states) order)
    (hn : nextUnseen order.notSeen state.dependencies = none) :
    Walk all states { order with output := order.output ++ [state.transaction.effects] } := by
  have hget := h.stack state mem_cons_self
  have hdig := (hk _ _ hget).2
  have hout : outputDigests { order with output := order.output ++ [state.transaction.effects] } =
      outputDigests order ++ [state.transaction.digest] := by
    rw [outputDigests, map_append, map_singleton, hdig]
    rfl
  have hdo : ∀ d, Depends all state.transaction.digest d → d ∈ outputDigests order := by
    intro d hd
    rcases h.waits.1 d hd with hin | ho | ha
    · exact h.seen_output hac hd (nextUnseen_eq_none hn d hin)
    · exact ho
    · cases ha
  refine ⟨?_, h.notSeen, fun s hs => h.stack s (mem_cons_of_mem _ hs), ?_, ?_,
    (pairwise_cons.1 h.chain).2, ?_⟩
  · rw [hout]
    refine List.Perm.trans (List.Perm.append_left _ ?_) h.perm
    rw [← append_assoc]
    exact perm_append_singleton _ _
  · rw [forall_mem_append, forall_mem_singleton]
    exact ⟨h.output, state.transaction, by rw [hdig]; exact hget, rfl⟩
  · exact ordered_append h.ordered (by rw [hdig]; exact hdo)
  · refine h.waits.2.mono (fun d hd => ?_) fun d hd => .inl ?_
    · rw [hout]
      exact mem_append_left _ hd
    · cases hd
      rw [hout]
      exact mem_append_right _ (mem_singleton.2 rfl)

/-- The dependencies left to look at are dependencies. -/
def Looks (states : List InsertState) : Prop :=
  ∀ s ∈ states, ∀ d ∈ s.dependencies, d ∈ s.transaction.dependencies

/-- **The walk ends.** -/
theorem Walk.insertLoop (hkeyed : Keyed all) (hacyclic : Acyclic all) {fuel : ℕ}
    (h : Walk all states order) (hlooks : Looks states)
    (hfuel : 2 * order.notSeen.entries.length + states.length ≤ fuel) :
    ∃ order', insertLoop fuel states order = some order' ∧ Walk all [] order' ∧
      order'.notSeen.entries.length ≤ order.notSeen.entries.length := by
  induction fuel generalizing states order with
  | zero =>
    cases states with
    | nil => exact ⟨order, rfl, h, le_rfl⟩
    | cons state states => simp at hfuel
  | succ fuel ih =>
    cases states with
    | nil => exact ⟨order, rfl, h, le_rfl⟩
    | cons state states =>
      rw [length_cons] at hfuel
      obtain ⟨hstate, hstates⟩ := forall_mem_cons.1 hlooks
      rw [insertLoop]
      split
      next t deps hnext =>
        obtain ⟨skipped, d, hdeps, hget, -⟩ := nextUnseen_eq_some hnext
        have hd := (hkeyed d t (h.notSeen d t hget)).1
        have hlen := length_erase (mem_iff.2 ⟨t, hget⟩)
        rw [← hd] at hlen
        have hlooks' : Looks (.new t :: { state with dependencies := deps } :: states) := by
          refine forall_mem_cons.2 ⟨fun d hd => mem_new_dependencies.1 hd,
            forall_mem_cons.2 ⟨fun d hd => hstate d ?_, hstates⟩⟩
          rw [hdeps]
          exact mem_append_right _ (mem_cons_of_mem _ hd)
        obtain ⟨order', hrun, h', hle⟩ := ih (h.into hkeyed hacyclic hnext hstate) hlooks' (by
          simp only [length_cons]
          omega)
        exact ⟨order', hrun, h', hle.trans (by simp only; omega)⟩
      next hnext => exact ih (h.done hkeyed hacyclic hnext) hstates (by simp only; omega)

/-- The next transaction that was not seen, and everything it depends on. -/
theorem Walk.sortLoop (hkeyed : Keyed all) (hacyclic : Acyclic all) {fuel : ℕ}
    (h : Walk all [] order) (hfuel : order.notSeen.entries.length ≤ fuel) :
    ∃ order', sortLoop fuel order = some order' ∧ Walk all [] order' ∧
      order'.notSeen.entries = [] := by
  induction fuel generalizing order with
  | zero =>
    have hnil : order.notSeen.entries = [] := eq_nil_of_length_eq_zero (Nat.le_zero.1 hfuel)
    refine ⟨order, ?_, h, hnil⟩
    unfold sortLoop
    rw [OrdMap.first?, hnil]
    rfl
  | succ fuel ih =>
    unfold sortLoop
    split
    next hfirst =>
      exact ⟨order, rfl, h, entries_eq_nil.2 (first?_eq_none.1 hfirst)⟩
    next digest t hfirst =>
      have hget := (first?_eq_some hfirst).1
      have hall := h.notSeen digest t hget
      obtain ⟨rfl, -⟩ := hkeyed digest t hall
      have hmem := mem_iff.2 ⟨t, hget⟩
      have hlen := length_erase hmem
      have hstart : Walk all [.new t] { order with notSeen := order.notSeen.erase t.digest } := by
        refine ⟨?_, fun d' t' hget' => ?_, ?_, h.output, h.ordered, pairwise_singleton _ _,
          ⟨fun d hd => .inl ?_, trivial⟩⟩
        · exact (perm_middle.trans ((keys_perm_erase hmem).append_right _)).trans h.perm
        · exact h.notSeen d' t' (get?_of_erase hget')
        · rw [forall_mem_singleton]
          exact hall
        · obtain ⟨t', ht', hd', -⟩ := hd
          cases (hall.symm.trans ht' : some t = some t')
          exact mem_new_dependencies.2 hd'
      obtain ⟨order₁, hins, h₁, hle⟩ := hstart.insertLoop hkeyed hacyclic
        (forall_mem_singleton.2 fun d hd => mem_new_dependencies.1 hd) le_rfl
      obtain ⟨order', hrun, h', hnil⟩ := ih h₁ (hle.trans (by simp only; omega))
      refine ⟨order', ?_, h', hnil⟩
      have heq : CausalOrder.insert { order with notSeen := order.notSeen.erase t.digest } t =
          some order₁ := hins
      simp only [heq, Option.bind_eq_bind, Option.bind_some, hrun]

end Walk

/-! ## The sorted effects -/

/-- The first transaction depends on the second, or overwrites a version that the second reads. -/
def DependsOn (e e' : TransactionEffects) : Prop :=
  e'.transactionDigest ∈ e.dependencies ∨
    ∃ key, (∃ i ∈ e.inputSharedObjects, overwrittenVersion i = some key) ∧
      ∃ j ∈ e'.inputSharedObjects, readVersion j = some key

instance (e e' : TransactionEffects) : Decidable (DependsOn e e') :=
  decidable_of_iff (e'.transactionDigest ∈ e.dependencies ∨
    ∃ i ∈ e.inputSharedObjects, ∃ j ∈ e'.inputSharedObjects,
      (readVersion j).isSome ∧ overwrittenVersion i = readVersion j) <| by
    refine or_congr_right ⟨?_, ?_⟩
    · rintro ⟨i, hi, j, hj, hsome, heq⟩
      obtain ⟨key, hkey⟩ := Option.isSome_iff_exists.1 hsome
      exact ⟨key, ⟨i, hi, heq.trans hkey⟩, j, hj, hkey⟩
    · rintro ⟨key, ⟨i, hi, hover⟩, j, hj, hread⟩
      exact ⟨i, hi, j, hj, by rw [hread]; rfl, hover.trans hread.symm⟩

/-- A digest stands for one transaction. -/
def OneEach (l : List TransactionEffects) : Prop :=
  ∀ a ∈ l, ∀ b ∈ l, a.transactionDigest = b.transactionDigest → a = b

/-- The dependencies between the effects of a list have no cycle. -/
def AcyclicOn (l : List TransactionEffects) : Prop :=
  ∀ e, ¬ Relation.TransGen (fun a b => a ∈ l ∧ b ∈ l ∧ DependsOn a b) e e

variable {l l' : List TransactionEffects}

variable {d : TransactionDigest} {key : ObjectKey}

theorem mem_overwrites :
    key ∈ (RWLockDependencyBuilder.fromEffects l).overwrites d ↔ ∃ e ∈ l, e.transactionDigest = d ∧
        ∃ i ∈ e.inputSharedObjects, overwrittenVersion i = some key := by
  simp only [RWLockDependencyBuilder.overwrites, RWLockDependencyBuilder.fromEffects, mem_map,
    mem_filter, mem_flatMap, mem_filterMap, decide_eq_true_eq, Prod.exists, Prod.mk.injEq]
  constructor
  · rintro ⟨d', key', ⟨⟨e, he, key'', hi, rfl, rfl⟩, rfl⟩, rfl⟩
    exact ⟨e, he, rfl, hi⟩
  · rintro ⟨e, he, rfl, hi⟩
    exact ⟨_, key, ⟨⟨e, he, key, hi, rfl, rfl⟩, rfl⟩, rfl⟩

theorem mem_reads : d ∈ (RWLockDependencyBuilder.fromEffects l).reads key ↔
      ∃ e ∈ l, e.transactionDigest = d ∧ ∃ j ∈ e.inputSharedObjects, readVersion j = some key := by
  simp only [RWLockDependencyBuilder.reads, RWLockDependencyBuilder.fromEffects, mem_map,
    mem_filter, mem_flatMap, mem_filterMap, decide_eq_true_eq, Prod.exists, Prod.mk.injEq]
  constructor
  · rintro ⟨key', d', ⟨⟨e, he, key'', hi, rfl, rfl⟩, rfl⟩, rfl⟩
    exact ⟨e, he, rfl, hi⟩
  · rintro ⟨e, he, rfl, hi⟩
    exact ⟨key, _, ⟨⟨e, he, key, hi, rfl, rfl⟩, rfl⟩, rfl⟩

open TransactionDependencies

theorem mem_fromEffects_dependencies {e : TransactionEffects} :
    d ∈ (TransactionDependencies.fromEffects (.fromEffects l) e).dependencies ↔
      d ∈ e.dependencies ∨ ∃ key ∈ (RWLockDependencyBuilder.fromEffects l).overwrites
        e.transactionDigest, d ∈ (RWLockDependencyBuilder.fromEffects l).reads key := by
  simp only [fromEffects, RWLockDependencyBuilder.addDependenciesFor, mem_foldl_insert,
    mem_flatMap, exists_eq_right, notMem_empty, or_false]
  exact or_comm

section

variable (hl : OneEach l)
include hl

theorem fromVec_get? {t : TransactionDependencies} :
    (fromVec l).notSeen.get? d = some t ↔ ∃ e ∈ l, e.transactionDigest = d ∧
        TransactionDependencies.fromEffects (.fromEffects l) e = t := by
  refine (get?_foldl_insert (fun a ha b hb hab => by rw [hl a ha b hb hab]) _).trans ?_
  simp

theorem keyed_fromVec : Keyed (fromVec l).notSeen := by
  intro d t ht
  obtain ⟨e, _, rfl, rfl⟩ := (fromVec_get? hl).1 ht
  exact ⟨rfl, rfl⟩

/-- The walk follows the dependencies between the effects. -/
theorem depends_fromVec {d' : TransactionDigest} :
    Depends (fromVec l).notSeen d d' ↔
      ∃ e ∈ l, ∃ e' ∈ l, e.transactionDigest = d ∧ e'.transactionDigest = d' ∧ DependsOn e e' := by
  constructor
  · rintro ⟨t, ht, hdep, hall⟩
    obtain ⟨e, he, rfl, rfl⟩ := (fromVec_get? hl).1 ht
    obtain ⟨t', ht'⟩ := mem_iff.1 hall
    obtain ⟨e', he', rfl, -⟩ := (fromVec_get? hl).1 ht'
    refine ⟨e, he, e', he', rfl, rfl, ?_⟩
    rcases mem_fromEffects_dependencies.1 hdep with hdep | ⟨key, ho, hr⟩
    · exact .inl hdep
    · obtain ⟨e₁, he₁, heq₁, ho⟩ := mem_overwrites.1 ho
      obtain ⟨e₂, he₂, heq₂, hr⟩ := mem_reads.1 hr
      rw [hl e₁ he₁ e he heq₁] at ho
      rw [hl e₂ he₂ e' he' heq₂] at hr
      exact .inr ⟨key, ho, hr⟩
  · rintro ⟨e, he, e', he', rfl, rfl, hdep⟩
    refine ⟨_, (fromVec_get? hl).2 ⟨e, he, rfl, rfl⟩, mem_fromEffects_dependencies.2 ?_,
      mem_iff.2 ⟨_, (fromVec_get? hl).2 ⟨e', he', rfl, rfl⟩⟩⟩
    rcases hdep with hdep | ⟨key, ho, hr⟩
    · exact .inl hdep
    · exact .inr ⟨key, mem_overwrites.2 ⟨e, he, rfl, ho⟩, mem_reads.2 ⟨e', he', rfl, hr⟩⟩

theorem acyclic_fromVec (ha : AcyclicOn l) : Acyclic (fromVec l).notSeen := by
  have hli : ∀ d d', Relation.TransGen (Depends (fromVec l).notSeen) d d' →
      ∃ e ∈ l, ∃ e' ∈ l, e.transactionDigest = d ∧ e'.transactionDigest = d' ∧
        Relation.TransGen (fun a b => a ∈ l ∧ b ∈ l ∧ DependsOn a b) e e' := by
    intro d d' h
    induction h with
    | single h =>
      obtain ⟨e, he, e', he', hd, hd', hdep⟩ := (depends_fromVec hl).1 h
      exact ⟨e, he, e', he', hd, hd', .single ⟨he, he', hdep⟩⟩
    | tail _ h ih =>
      obtain ⟨e, he, e₁, he₁, hd, hd₁, hgen⟩ := ih
      obtain ⟨e₂, he₂, e', he', hd₂, hd', hdep⟩ := (depends_fromVec hl).1 h
      cases hl e₂ he₂ e₁ he₁ (hd₂.trans hd₁.symm)
      exact ⟨e, he, e', he', hd, hd', hgen.tail ⟨he₂, he', hdep⟩⟩
  intro d h
  obtain ⟨e, he, e', he', hd, hd', hgen⟩ := hli d d h
  cases hl e he e' he' (hd.trans hd'.symm)
  exact ha e hgen

/-- **The causal sort.** -/
theorem causalSort_spec (hacyclic : AcyclicOn l) :
    ∃ out, causalSort l = some out ∧ (out.map (·.transactionDigest)).Nodup ∧
      (∀ e, e ∈ out ↔ e ∈ l) ∧
      ∀ pre e post, out = pre ++ e :: post → ∀ e' ∈ l, DependsOn e e' → e' ∈ pre := by
  have hstart : Walk (fromVec l).notSeen [] (fromVec l) :=
    { perm := by
        rw [stackDigests, outputDigests, fromVec, map_nil, map_nil, append_nil, append_nil]
      notSeen := fun d t ht => ht
      stack := by simp
      output := by simp [fromVec]
      ordered := fun pre e post h => by simp [fromVec] at h
      chain := .nil
      waits := trivial }
  obtain ⟨order, hrun, hwalk, hnil⟩ :=
    hstart.sortLoop (keyed_fromVec hl) (acyclic_fromVec hl hacyclic) le_rfl
  have hkeys : (order.output.map (·.transactionDigest)).Perm (fromVec l).notSeen.keys := by
    have hperm := hwalk.perm
    rwa [OrdMap.keys, hnil, map_nil, nil_append, stackDigests, map_nil, nil_append] at hperm
  have hmem : ∀ e, e ∈ order.output ↔ e ∈ l := by
    intro e
    constructor
    · intro he
      obtain ⟨t, ht, rfl⟩ := hwalk.output e he
      obtain ⟨e', he', -, rfl⟩ := (fromVec_get? hl).1 ht
      exact he'
    · intro he
      have hkey : e.transactionDigest ∈ (fromVec l).notSeen.keys :=
        OrdMap.mem_keys.2 (mem_iff.2 ⟨_, (fromVec_get? hl).2 ⟨e, he, rfl, rfl⟩⟩)
      obtain ⟨e', he', hdig⟩ := mem_map.1 (hkeys.mem_iff.2 hkey)
      obtain ⟨t, ht, rfl⟩ := hwalk.output e' he'
      obtain ⟨e'', he'', -, rfl⟩ := (fromVec_get? hl).1 ht
      rwa [← hl e'' he'' e he hdig]
  refine ⟨order.output, ?_, ?_, hmem, fun pre e post hsplit e' he' hdep => ?_⟩
  · rw [causalSort, hrun]
    rfl
  · exact hkeys.nodup_iff.2 (nodup_keys _)
  · have he : e ∈ l := (hmem e).1 (by rw [hsplit]; simp)
    obtain ⟨x, hx, hdig⟩ := mem_map.1 (hwalk.ordered pre e post hsplit _
      ((depends_fromVec hl).2 ⟨e, he, e', he', rfl, rfl, hdep⟩))
    have hxl : x ∈ l := (hmem x).1 (by rw [hsplit]; exact mem_append_left _ hx)
    rwa [← hl x hxl e' he' hdig]

/-- **The order of the input does not matter.** -/
theorem causalSort_congr (h : ∀ e, e ∈ l ↔ e ∈ l') : causalSort l = causalSort l' := by
  have hl' : OneEach l' := fun a ha b hb => hl a ((h a).2 ha) b ((h b).2 hb)
  have hbu : ∀ e, fromEffects (.fromEffects l) e = fromEffects (.fromEffects l') e := by
    intro e
    have hd : (fromEffects (.fromEffects l) e).dependencies =
        (fromEffects (.fromEffects l') e).dependencies := by
      refine set_ext fun d => ?_
      simp only [mem_fromEffects_dependencies, mem_overwrites, mem_reads, h]
    have heq : ∀ b, fromEffects b e = ⟨e.transactionDigest,
        (fromEffects b e).dependencies, e⟩ := fun b => rfl
    rw [heq, hd, ← heq]
  have hf : fromVec l = fromVec l' := by
    have hn : (fromVec l).notSeen = (fromVec l').notSeen := by
      refine ext_get? fun d => Option.ext fun t => ?_
      rw [fromVec_get? hl, fromVec_get? hl']
      simp only [h, hbu]
    have heq : ∀ l, fromVec l = ⟨(fromVec l).notSeen, []⟩ := fun l => rfl
    rw [heq, hn, ← heq]
  rw [causalSort, causalSort, hf]

end

/-- Effects that depend on effects of lower rank only have no cycle. -/
theorem acyclicOn_of_rank {f : TransactionEffects → ℕ}
    (h : ∀ a ∈ l, ∀ b ∈ l, DependsOn a b → f b < f a) : AcyclicOn l := by
  have hlt : ∀ a b, Relation.TransGen (fun a b => a ∈ l ∧ b ∈ l ∧ DependsOn a b) a b →
      f b < f a := by
    intro a b hab
    induction hab with
    | single hs => exact h _ hs.1 _ hs.2.1 hs.2.2
    | tail _ hs ih => exact (h _ hs.1 _ hs.2.1 hs.2.2).trans ih
  intro e he
  exact lt_irrefl _ (hlt e e he)

/-- **The sort of distinct transactions.** Each comes after what it depends on and after the readers
of what it overwrites, whatever the order of the input was. -/
theorem causalSort_perm (hd : (l.map (·.transactionDigest)).Nodup) (ha : AcyclicOn l)
    (hp : l'.Perm l) :
    ∃ out, causalSort l = some out ∧ causalSort l' = some out ∧ out.Perm l ∧
      ∀ pre e post, out = pre ++ e :: post → ∀ e' ∈ l, DependsOn e e' → e' ∈ pre := by
  have hl : OneEach l := inj_on_of_nodup_map hd
  obtain ⟨out, hs, hn, hmem, ho⟩ := causalSort_spec hl ha
  refine ⟨out, hs, ?_, ?_, ho⟩
  · rw [← causalSort_congr hl fun e => hp.mem_iff.symm]
    exact hs
  · exact (perm_ext_iff_of_nodup (.of_map _ hn) (.of_map _ hd)).2 hmem

/-- The first transaction overwrites what the second has read. -/
def overwritten : List TransactionEffects :=
  [⟨1, 0, 0, ⟨0, 0, 0, 0⟩, [.mutate ⟨7, 1⟩], []⟩, ⟨2, 0, 0, ⟨0, 0, 0, 0⟩, [.readOnly ⟨7, 1⟩], []⟩]

theorem causalSort_perm_overwritten :
    ∃ out, causalSort overwritten = some out ∧ causalSort overwritten.reverse = some out ∧
      out = overwritten.reverse := by
  have ha : AcyclicOn overwritten :=
    acyclicOn_of_rank (f := fun e => 2 - e.transactionDigest) (by decide +kernel)
  obtain ⟨out, hs, hr, -, -⟩ := causalSort_perm (by decide +kernel) ha (reverse_perm overwritten)
  refine ⟨out, hs, hr, ?_⟩
  have hout : causalSort overwritten = some overwritten.reverse := by decide +kernel
  exact Option.some.inj (hs.symm.trans hout)

end OneChain.Checkpoints
