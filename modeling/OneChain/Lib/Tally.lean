import Mathlib.Algebra.Order.BigOperators.Group.List
import OneChain.Lib.Checked
import OneChain.Lib.Floor

/-!
# Tallies over lists

`tally f l` adds up `f` over the elements of `l`. A list here stands for a collection of objects
held by somebody: objects are put in front and taken out by `List.erase`, so the two rules that
matter are `tally_cons` and `tally_erase_add`.
-/

namespace OneChain.Lib

open List

universe u

variable {α : Type u} {f g : α → ℕ} {a : α} {l : List α}

/-- The sum of `f` over `l`. -/
def tally (f : α → ℕ) (l : List α) : ℕ := (l.map f).sum

@[simp] theorem tally_nil : tally f [] = 0 := rfl

@[simp] theorem tally_cons : tally f (a :: l) = f a + tally f l := by simp [tally]

theorem tally_erase_add [DecidableEq α] (h : a ∈ l) : tally f (l.erase a) + f a = tally f l := by
  rw [Nat.add_comm]
  exact sum_map_erase f h

theorem le_tally (h : a ∈ l) : f a ≤ tally f l := single_le_sum (by simp) _ (mem_map_of_mem h)

theorem tally_le_tally (h : ∀ a ∈ l, f a ≤ g a) : tally f l ≤ tally g l := sum_le_sum h

theorem tally_add (f g : α → ℕ) (l : List α) :
    tally (fun a => f a + g a) l = tally f l + tally g l := by
  induction l with
  | nil => rfl
  | cons a l ih =>
    rw [tally_cons, tally_cons, tally_cons]
    omega

theorem tally_congr (h : ∀ a ∈ l, f a = g a) : tally f l = tally g l := by
  unfold tally
  rw [map_congr_left h]

theorem tally_filter (f : α → ℕ) (p : α → Bool) (l : List α) :
    tally f (l.filter p) = tally (fun a => if p a then f a else 0) l := by
  induction l with
  | nil => rfl
  | cons a l ih =>
    cases hp : p a with
    | true => rw [filter_cons_of_pos hp, tally_cons, tally_cons, ih, if_pos hp]
    | false => rw [filter_cons_of_neg (by simp [hp]), tally_cons, ih, if_neg (by simp [hp]),
        Nat.zero_add]

theorem tally_filter_mono {p q : α → Bool} (h : ∀ a ∈ l, p a → q a) :
    tally f (l.filter p) ≤ tally f (l.filter q) := by
  rw [tally_filter, tally_filter]
  refine tally_le_tally fun a ha => ?_
  cases hp : p a with
  | true => simp [h a ha hp]
  | false => simp

theorem tally_append (f : α → ℕ) (l l' : List α) : tally f (l ++ l') = tally f l + tally f l' := by
  simp [tally]

theorem tally_map {β : Type u} (f : β → ℕ) (g : α → β) (l : List α) :
    tally f (l.map g) = tally (fun a => f (g a)) l := by
  rw [tally, map_map]
  rfl

theorem tally_flatMap {β : Type u} (f : β → ℕ) (g : α → List β) (l : List α) :
    tally f (l.flatMap g) = tally (fun a => tally f (g a)) l := by
  induction l with
  | nil => rfl
  | cons a l ih => rw [flatMap_cons, tally_append, ih, tally_cons]

theorem tally_eq_zero (h : ∀ a ∈ l, f a = 0) : tally f l = 0 := by
  rw [tally_congr h]
  simp [tally]

theorem tally_perm {l' : List α} (h : l.Perm l') : tally f l = tally f l' := (h.map f).sum_eq

/-- Distinct objects of `l'` amount to no more than `l'`. -/
theorem tally_le_of_subset {l' : List α} (hl : l.Nodup) (h : l ⊆ l') : tally f l ≤ tally f l' := by
  obtain ⟨m, hp, hsub⟩ := hl.subperm h
  rw [← tally_perm hp]
  exact (hsub.map f).sum_le_sum fun _ _ => Nat.zero_le _

theorem tally_const (n : ℕ) (l : List α) : tally (fun _ => n) l = l.length * n := by
  simp [tally]

theorem tally_filter_add (f : α → ℕ) (p : α → Bool) (l : List α) :
    tally f (l.filter p) + tally f (l.filter fun a => !p a) = tally f l := by
  rw [tally_filter, tally_filter, ← tally_add]
  refine tally_congr fun a _ => ?_
  cases p a <;> simp

/-- **Shares add up to at most the share of the whole.** -/
theorem tally_share_le (n : ℕ) (f : α → ℕ) (c : ℕ) (l : List α) :
    tally (fun a => share n (f a) c) l ≤ share n (tally f l) c := by
  induction l with
  | nil => simp
  | cons a l ih =>
    exact (Nat.add_le_add_left ih _).trans (share_add_le n _ _ c)

/-- A loop that adds `f a` in every round, and may stop. -/
theorem foldlM_tally {ε : Type u} {α : Type} {f : α → ℕ} {l : List α} {step : ℕ → α → Except ε ℕ}
    (hs : ∀ s s', ∀ a ∈ l, step s a = .ok s' → s' = s + f a) {s s' : ℕ}
    (h : l.foldlM step s = .ok s') : s' = s + tally f l := by
  induction l generalizing s with
  | nil => exact (Except.ok.inj h).symm
  | cons a l ih =>
    rw [foldlM_cons, bind_ok] at h
    obtain ⟨t, ht, hl⟩ := h
    rw [ih (fun s s' b hb => hs s s' b (mem_cons_of_mem _ hb)) hl,
      hs s t a mem_cons_self ht, tally_cons, Nat.add_assoc]

end OneChain.Lib
