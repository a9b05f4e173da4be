import OneChain.Lib.Checked

/-!
# Machines and their runs

A machine has initial states and a step function that may fail; a failed step leaves no new
state behind. Runs are taken under a *discipline*, a condition on the action and the state it
is taken in: `Reach C s` says that some run whose every step meets `C` ends in `s`. With the
trivial discipline these are all runs.

* `Reach.invariant` — what holds initially and survives every step holds in every state.
* `Reach.mono` — a run under a discipline is a run under any weaker one.
* `reach_of_run` — a run that was computed is a run.
-/

namespace OneChain.Lib

/-- Initial states, and what an action does or why it fails. -/
structure Machine (σ α ε : Type) where
  init : σ → Prop
  step : σ → α → Except ε σ

namespace Machine

variable {σ α ε : Type} {M : Machine σ α ε} {C D : σ → α → Prop} {P : σ → Prop}

/-- The end states of the runs whose steps all meet `C`. -/
inductive Reach (M : Machine σ α ε) (C : σ → α → Prop) : σ → Prop
  | init {s : σ} : M.init s → Reach M C s
  | step {s s' : σ} (a : α) : Reach M C s → C s a → M.step s a = .ok s' → Reach M C s'

/-- The discipline that allows every step. -/
def free : σ → α → Prop := fun _ _ => True
  deriving Decidable

variable {s s' : σ} {as : List α}

/-- **The invariant rule.** -/
theorem Reach.invariant (h : M.Reach C s) (hi : ∀ s, M.init s → P s)
    (hst : ∀ s a s', P s → C s a → M.step s a = .ok s' → P s') : P s := by
  induction h with
  | init hs => exact hi _ hs
  | step a _ hC hs ih => exact hst _ a _ ih hC hs

theorem Reach.mono (h : M.Reach C s) (hCD : ∀ s a, C s a → D s a) : M.Reach D s := by
  induction h with
  | init hs => exact .init hs
  | step a _ hC hs ih => exact .step a ih (hCD _ _ hC) hs

theorem Reach.to_free (h : M.Reach C s) : M.Reach free s := h.mono fun _ _ _ => trivial

/-- The actions `as`, one after the other. -/
def run (M : Machine σ α ε) (s : σ) (as : List α) : Except ε σ := as.foldlM M.step s

@[simp] theorem run_nil (s : σ) : M.run s [] = .ok s := rfl

theorem run_cons (s : σ) (a : α) (as : List α) :
    M.run s (a :: as) = M.step s a >>= fun s' => M.run s' as :=
  List.foldlM_cons

theorem run_append (s : σ) (as bs : List α) :
    M.run s (as ++ bs) = M.run s as >>= fun s' => M.run s' bs :=
  List.foldlM_append

theorem run_singleton (s : σ) (a : α) : M.run s [a] = M.step s a := by
  rw [run_cons]
  cases M.step s a <;> rfl

/-- A run fails only where one of its actions does. -/
theorem run_ne_error {e : ε} (h : ∀ s, ∀ a ∈ as, M.step s a ≠ .error e) :
    M.run s as ≠ .error e := by
  induction as generalizing s with
  | nil => simp
  | cons a as ih =>
    rw [run_cons, ne_eq, bind_error]
    rintro (hf | ⟨s', _, hr⟩)
    · exact h s a List.mem_cons_self hf
    · exact ih (fun s b hb => h s b (List.mem_cons_of_mem _ hb)) hr

theorem reach_of_run (hs : M.Reach free s) (h : M.run s as = .ok s') : M.Reach free s' :=
  foldlM_induction (fun _ _ a _ ht hst => .step a ht trivial hst) hs h

/-- A run is not longer than a measure that every step lowers. -/
theorem run_length_le {μ : σ → ℕ} (h : ∀ s s', ∀ a ∈ as, M.step s a = .ok s' → μ s' < μ s)
    (hrun : M.run s as = .ok s') : as.length + μ s' ≤ μ s := by
  induction as generalizing s with
  | nil =>
    cases hrun
    simp
  | cons a as ih =>
    obtain ⟨t, hs, hr⟩ := bind_ok.1 hrun
    have hf := h s t a List.mem_cons_self hs
    have hle := ih (fun s s' b hb => h s s' b (List.mem_cons_of_mem _ hb)) hr
    rw [List.length_cons]
    omega

/-! ## Concrete runs -/

/-- A run that is checked against the discipline step by step. -/
def runUnder (M : Machine σ α ε) (C : σ → α → Prop) [∀ s a, Decidable (C s a)] :
    σ → List α → Option σ
  | s, [] => some s
  | s, a :: as =>
    if C s a then
      match M.step s a with
      | .ok s' => runUnder M C s' as
      | .error _ => none
    else none

theorem reach_of_runUnder [∀ s a, Decidable (C s a)] (hs : M.Reach C s)
    (h : M.runUnder C s as = some s') : M.Reach C s' := by
  induction as generalizing s with
  | nil =>
    cases h
    exact hs
  | cons a as ih =>
    rw [runUnder] at h
    split at h
    · rename_i hC
      cases hst : M.step s a with
      | ok t =>
        rw [hst] at h
        exact ih (.step a hs hC hst) h
      | error e =>
        rw [hst] at h
        cases h
    · cases h

theorem init_ok {t : σ} (h : M.init t) (s : σ) (hs : (.ok t : Except ε σ) = .ok s) : M.init s :=
  Except.ok.inj hs ▸ h

section Ends

variable [∀ s a, Decidable (C s a)] {start : Except ε σ} {Q : σ → Prop} (as : List α)
  (P : σ → Prop) [DecidablePred P] (hi : ∀ s, start = .ok s → M.init s)
  (h : (start.toOption.bind (M.runUnder C · as)).any (fun s => P s) = true)
include hi h

/-- What the end of a computed run shows. -/
theorem exists_reach : ∃ s, M.Reach C s ∧ P s := by
  cases start with
  | error e => cases h
  | ok s₀ =>
    obtain ⟨s, hs, hP⟩ := (Option.any_eq_true _ _).1 h
    exact ⟨s, reach_of_runUnder (.init (hi s₀ rfl)) hs, of_decide_eq_true hP⟩

theorem exists_reach_imp (hQ : ∀ s, M.Reach C s → P s → Q s) : ∃ s, M.Reach C s ∧ Q s := by
  obtain ⟨s, hs, hP⟩ := exists_reach as P hi h
  exact ⟨s, hs, hQ s hs hP⟩

theorem exists_reach_and (hQ : ∀ s, M.Reach C s → P s → Q s) : ∃ s, M.Reach C s ∧ P s ∧ Q s :=
  exists_reach_imp as P hi h fun s hs hP => ⟨hP, hQ s hs hP⟩

end Ends

theorem exists_assoc {R P P' Q : σ → Prop} (h : ∃ s, R s ∧ (P s ∧ P' s) ∧ Q s) :
    ∃ s, R s ∧ P s ∧ P' s ∧ Q s := by
  simpa only [and_assoc] using h

end Machine

end OneChain.Lib
