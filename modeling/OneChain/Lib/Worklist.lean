import Mathlib.Data.Finset.Card

/-!
# Worklist traversal of a graph

A traversal takes a vertex off a stack, marks its unmarked successors and puts them on the stack,
until the stack is empty. The vertices that were marked before it started are not entered.

* `explore_add` — more fuel does not change the outcome.
* `explore_isSome` — fuel for the unmarked vertices of a finite closed set is enough.
* `mem_of_explore` — from one vertex, and if no edge leaves the set marked at the start, the
  traversal visits what can be reached and was not marked; each vertex once (`nodup_of_explore`).
-/

namespace OneChain.Lib.Worklist

open List

universe u

variable {κ : Type u} {succ : κ → List κ}

/-! ## Reachable vertices -/

/-- The graph leads from the first vertex to the second. -/
def Leads (succ : κ → List κ) : κ → κ → Prop := Relation.ReflTransGen fun a b => b ∈ succ a

/-- What holds at the start and is kept by every edge into the outside of a set holds outside the
set, if no edge leaves it. -/
theorem Leads.induction_outside {s : Set κ} (hs : ∀ a ∈ s, ∀ b ∈ succ a, b ∈ s) {P : κ → Prop}
    {a b : κ} (h : Leads succ a b) (ha : P a)
    (hst : ∀ x y, P x → y ∈ succ x → y ∉ s → P y) (hb : b ∉ s) : P b := by
  induction h with
  | refl => exact ha
  | @tail x y _ hxy ih =>
    have hx : x ∉ s := fun hx => hb (hs x hx y hxy)
    exact hst x y (ih hx) hxy hb

/-! ## The loop -/

section Loop

variable [DecidableEq κ]

/-- The last successor is taken off first. -/
def explore (succ : κ → List κ) : ℕ → Finset κ → List κ → List κ → Option (Finset κ × List κ)
  | 0, _, _, _ => none
  | _ + 1, marked, [], visited => some (marked, visited)
  | fuel + 1, marked, x :: work, visited =>
    let fresh := (succ x).filter (· ∉ marked)
    explore succ fuel (marked ∪ fresh.toFinset) (fresh.reverse ++ work) (visited ++ [x])

theorem explore_add {fuel : ℕ} (extra : ℕ) {marked : Finset κ} {work visited : List κ}
    {out : Finset κ × List κ} (h : explore succ fuel marked work visited = some out) :
    explore succ (fuel + extra) marked work visited = some out := by
  induction fuel generalizing marked work visited with
  | zero => cases h
  | succ fuel ih =>
    rw [Nat.succ_add]
    cases work with
    | nil => exact h
    | cons x work => exact ih h

/-- The outcome does not depend on the fuel. -/
theorem explore_unique {fuel fuel' : ℕ} {marked : Finset κ} {work visited : List κ}
    {out out' : Finset κ × List κ} (h : explore succ fuel marked work visited = some out)
    (h' : explore succ fuel' marked work visited = some out') : out = out' := by
  have hle := explore_add fuel' h
  rw [Nat.add_comm, explore_add fuel h'] at hle
  exact (Option.some.inj hle).symm

/-! ## The invariant -/

/-- The state of a traversal from `root` with the vertices `base` marked before: what was visited or
waits is what was marked since, each once, and the successors of visited vertices are marked. -/
structure Inv (succ : κ → List κ) (base : Finset κ) (root : κ) (marked : Finset κ)
    (work visited : List κ) : Prop where
  nodup : (visited ++ work).Nodup
  marked_iff : ∀ x, x ∈ marked ↔ x ∈ base ∨ x ∈ visited ++ work
  fresh : ∀ x ∈ visited ++ work, x ∉ base
  reached : ∀ x ∈ visited ++ work, Leads succ root x
  root_mem : root ∈ visited ++ work
  closed : ∀ x ∈ visited, ∀ y ∈ succ x, y ∈ marked

theorem Inv.start {base : Finset κ} {root : κ} (h : root ∉ base) :
    Inv succ base root (insert root base) [root] [] := by
  refine ⟨by simp, fun x => ?_, ?_, ?_, by simp, by simp⟩
  · simp [or_comm]
  · intro x hx
    obtain rfl : x = root := by simpa using hx
    exact h
  · intro x hx
    obtain rfl : x = root := by simpa using hx
    exact .refl

section Step

variable {base : Finset κ} {root x : κ} {marked : Finset κ} {work visited : List κ}

omit [DecidableEq κ] in
theorem mem_step {y : κ} {fresh : List κ} :
    y ∈ (visited ++ [x]) ++ (fresh.reverse ++ work) ↔ y ∈ visited ++ x :: work ∨ y ∈ fresh := by
  simp only [mem_append, mem_cons, not_mem_nil, or_false, mem_reverse]
  tauto

/-- Visiting the vertex on top keeps the invariant. -/
theorem Inv.step (h : Inv succ base root marked (x :: work) visited) (hx : (succ x).Nodup) :
    Inv succ base root (marked ∪ ((succ x).filter (· ∉ marked)).toFinset)
      (((succ x).filter (· ∉ marked)).reverse ++ work) (visited ++ [x]) := by
  have hf : ∀ {y}, y ∈ (succ x).filter (· ∉ marked) ↔ y ∈ succ x ∧ y ∉ marked := by
    simp
  refine ⟨?_, fun y => ?_, fun y hy => ?_, fun y hy => ?_, ?_, fun y hy z hz => ?_⟩
  · have hp : ((visited ++ [x]) ++ (((succ x).filter (· ∉ marked)).reverse ++ work)).Perm
        ((visited ++ x :: work) ++ (succ x).filter (· ∉ marked)) := by
      rw [append_assoc, append_assoc]
      refine List.Perm.append_left visited ?_
      exact List.Perm.cons x (((reverse_perm _).append_right work).trans perm_append_comm)
    refine hp.nodup_iff.2 (nodup_append.2 ⟨h.nodup, hx.filter _, ?_⟩)
    intro y hy z hz hyz
    subst hyz
    exact (hf.1 hz).2 ((h.marked_iff y).2 (.inr hy))
  · rw [mem_step, Finset.mem_union, mem_toFinset, h.marked_iff, or_assoc]
  · rcases mem_step.1 hy with hy | hy
    · exact h.fresh y hy
    · intro hb
      exact (hf.1 hy).2 ((h.marked_iff y).2 (.inl hb))
  · rcases mem_step.1 hy with hy | hy
    · exact h.reached y hy
    · exact (h.reached x (by simp)).tail (hf.1 hy).1
  · exact mem_step.2 (.inl h.root_mem)
  · rw [Finset.mem_union, mem_toFinset]
    by_cases hm : z ∈ marked
    · exact .inl hm
    · rcases mem_append.1 hy with hy | hy
      · exact absurd (h.closed y hy z hz) hm
      · obtain rfl := mem_singleton.1 hy
        exact .inr (hf.2 ⟨hz, hm⟩)

end Step

/-! ## Outcomes -/

section Outcome

variable {base : Finset κ} {root : κ} {marked marked' : Finset κ} {work visited visited' : List κ}
  {fuel : ℕ}

theorem Inv.explore (hsucc : ∀ x, (succ x).Nodup) (h : Inv succ base root marked work visited)
    (hrun : Worklist.explore succ fuel marked work visited = some (marked', visited')) :
    Inv succ base root marked' [] visited' := by
  induction fuel generalizing marked work visited with
  | zero => cases hrun
  | succ fuel ih =>
    cases work with
    | nil =>
      cases hrun
      exact h
    | cons x work => exact ih (h.step (hsucc x)) hrun

/-- Each round of the loop visits one vertex of the closed set. -/
theorem explore_isSome {F : Finset κ} (hF : ∀ x ∈ F, ∀ y ∈ succ x, y ∈ F)
    (hsucc : ∀ x, (succ x).Nodup) (hw : ∀ x ∈ work, x ∈ F)
    (hfu : (F \ marked).card + work.length < fuel) :
    (Worklist.explore succ fuel marked work visited).isSome := by
  induction fuel generalizing marked work visited with
  | zero => omega
  | succ fuel ih =>
    cases work with
    | nil => rfl
    | cons x work =>
      have hf : ∀ {y}, y ∈ (succ x).filter (· ∉ marked) → y ∈ F ∧ y ∉ marked := by
        intro y hy
        rw [mem_filter, decide_eq_true_iff] at hy
        exact ⟨hF x (hw x mem_cons_self) y hy.1, hy.2⟩
      refine ih ?_ ?_
      · intro y hy
        rcases mem_append.1 hy with hy | hy
        · exact (hf (mem_reverse.1 hy)).1
        · exact hw y (mem_cons_of_mem _ hy)
      · have hsub : ((succ x).filter (· ∉ marked)).toFinset ⊆ F \ marked := by
          intro y hy
          exact Finset.mem_sdiff.2 (hf (mem_toFinset.1 hy))
        have hc := Finset.card_sdiff_of_subset hsub
        rw [toFinset_card_of_nodup ((hsucc x).filter _)] at hc
        have hle := Finset.card_le_card hsub
        rw [toFinset_card_of_nodup ((hsucc x).filter _)] at hle
        rw [← Finset.sup_eq_union, ← sdiff_sdiff_left]
        simp only [length_append, length_reverse, length_cons] at hfu ⊢
        omega

variable (hsucc : ∀ x, (succ x).Nodup) (hroot : root ∉ base)
  (hrun : Worklist.explore succ fuel (insert root base) [root] [] = some (marked', visited'))

include hsucc hroot hrun

theorem nodup_of_explore : visited'.Nodup := by
  have hinv := (Inv.start hroot).explore hsucc hrun
  simpa using hinv.nodup

theorem mem_marked_of_explore (x : κ) : x ∈ marked' ↔ x ∈ base ∨ x ∈ visited' := by
  have hinv := (Inv.start hroot).explore hsucc hrun
  simpa using hinv.marked_iff x

/-- **A traversal visits what can be reached and was not marked.** -/
theorem mem_of_explore (hb : ∀ a ∈ base, ∀ b ∈ succ a, b ∈ base) (x : κ) :
    x ∈ visited' ↔ Leads succ root x ∧ x ∉ base := by
  have hinv := (Inv.start hroot).explore hsucc hrun
  constructor
  · intro hx
    exact ⟨hinv.reached x (by simpa using hx), hinv.fresh x (by simpa using hx)⟩
  · rintro ⟨hl, hx⟩
    refine hl.induction_outside hb (by simpa using hinv.root_mem) ?_ hx
    intro y z hy hz hzb
    rcases (hinv.marked_iff z).1 (hinv.closed y hy z hz) with hb' | hvis
    · exact absurd hb' hzb
    · simpa using hvis

/-- The successors of what was visited are marked. -/
theorem closed_of_explore {x y : κ} (hx : x ∈ visited') (hy : y ∈ succ x) :
    y ∈ base ∨ y ∈ visited' := by
  have hinv := (Inv.start hroot).explore hsucc hrun
  exact (mem_marked_of_explore hsucc hroot hrun y).1 (hinv.closed x hx y hy)

end Outcome

end Loop

end OneChain.Lib.Worklist
