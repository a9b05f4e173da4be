import OneChain.Lib.Tally

/-!
# Lists of keyed records

A list whose elements carry a key, no two the same. Searching for a key finds the one element
that has it, by value (`find?_key`) or by position (`findIdx?_key`); what is looked up under
different keys adds up to no more than the whole list (`tally_lookup_le`).

Positions marked for removal are erased from the back, so that erasing one does not move the
others; what is left was not marked (`forall_mem_eraseMarked`).
-/

namespace OneChain.Lib

open List

universe u v

variable {α : Type u} {κ : Type v} {key : α → κ} {l : List α}

/-! ## Searching -/

theorem eq_of_key (hl : (l.map key).Nodup) {a b : α} (ha : a ∈ l) (hb : b ∈ l)
    (h : key a = key b) : a = b :=
  inj_on_of_nodup_map hl ha hb h

theorem index_unique (hl : (l.map key).Nodup) {i j : ℕ} {a b : α} (ha : l[i]? = some a)
    (hb : l[j]? = some b) (h : key a = key b) : i = j := by
  obtain ⟨hi, rfl⟩ := List.getElem?_eq_some_iff.1 ha
  obtain ⟨hj, rfl⟩ := List.getElem?_eq_some_iff.1 hb
  have hi' : i < (l.map key).length := by simpa using hi
  have hj' : j < (l.map key).length := by simpa using hj
  have heq : (l.map key)[i] = (l.map key)[j] := by simpa using h
  exact hl.getElem_inj_iff.1 heq

/-- Keys that occur in the list are the keys of some of its elements. -/
theorem exists_of_keys {ks : List κ} (h : ∀ k ∈ ks, k ∈ l.map key) :
    ∃ ws : List α, ws.map key = ks ∧ ∀ w ∈ ws, w ∈ l := by
  induction ks with
  | nil => exact ⟨[], rfl, by simp⟩
  | cons k ks ih =>
    obtain ⟨a, ha, rfl⟩ := mem_map.1 (h k mem_cons_self)
    obtain ⟨ws, rfl, hws⟩ := ih fun k hk => h k (mem_cons_of_mem _ hk)
    exact ⟨a :: ws, rfl, forall_mem_cons.2 ⟨ha, hws⟩⟩

/-- Elements with different keys are a part of the list, up to the order. -/
theorem perm_filter {ws : List α} (hl : (l.map key).Nodup) (hws : (ws.map key).Nodup)
    (hsub : ∀ w ∈ ws, w ∈ l) {p : α → Bool} (hp : ∀ a ∈ l, p a = true ↔ key a ∈ ws.map key) :
    ws.Perm (l.filter p) := by
  refine (perm_ext_iff_of_nodup hws.of_map (hl.of_map.filter p)).2 fun a => ?_
  rw [mem_filter]
  constructor
  · intro ha
    exact ⟨hsub a ha, (hp a (hsub a ha)).2 (mem_map_of_mem ha)⟩
  · rintro ⟨ha, hpa⟩
    obtain ⟨w, hw, heq⟩ := mem_map.1 ((hp a ha).1 hpa)
    rwa [← eq_of_key hl (hsub w hw) ha heq]

variable [DecidableEq κ] {k : κ}

theorem find?_key_none : (l.find? fun x => key x = k) = none ↔ k ∉ l.map key := by
  simp [find?_eq_none]

theorem find?_key (hl : (l.map key).Nodup) {a : α} :
    (l.find? fun x => key x = k) = some a ↔ a ∈ l ∧ key a = k := by
  constructor
  · intro h
    exact ⟨mem_of_find?_eq_some h, by simpa using find?_some h⟩
  · rintro ⟨ha, rfl⟩
    cases h : l.find? fun x => key x = key a with
    | none => exact absurd (mem_map_of_mem ha) (find?_key_none.1 h)
    | some b =>
      have hb : key b = key a := by simpa using find?_some h
      rw [eq_of_key hl (mem_of_find?_eq_some h) ha hb]

theorem findIdx?_key_none : (l.findIdx? fun x => key x = k) = none ↔ k ∉ l.map key := by
  simp [findIdx?_eq_none_iff]

theorem exists_of_findIdx?_key {i : ℕ} (h : (l.findIdx? fun x => key x = k) = some i) :
    ∃ a, l[i]? = some a ∧ key a = k := by
  obtain ⟨hi, hk, _⟩ := findIdx?_eq_some_iff_getElem.1 h
  exact ⟨l[i], getElem?_eq_getElem hi, by simpa using hk⟩

theorem findIdx?_key (hl : (l.map key).Nodup) {i : ℕ} {a : α} (ha : l[i]? = some a)
    (hk : key a = k) : (l.findIdx? fun x => key x = k) = some i := by
  cases h : l.findIdx? fun x => key x = k with
  | none =>
    exact absurd (hk ▸ mem_map_of_mem (mem_of_getElem? ha)) (findIdx?_key_none.1 h)
  | some j =>
    obtain ⟨b, hb, hbk⟩ := exists_of_findIdx?_key h
    rw [index_unique hl ha hb (hk.trans hbk.symm)]

/-! ## Adding up what is looked up -/

/-- **Lookups under different keys.** Their sum is at most the sum over the list. -/
theorem tally_lookup_le (f : α → ℕ) {ks : List κ} (hks : ks.Nodup) :
    tally (fun k => ((l.find? fun x => key x = k).map f).getD 0) ks ≤ tally f l := by
  induction l generalizing ks with
  | nil => exact (tally_eq_zero (by simp)).le
  | cons a l ih =>
    -- the one key that finds `a` is taken out of `ks`; the others search the rest
    have hr : ∀ ks' : List κ, key a ∉ ks' →
        tally (fun k => (((a :: l).find? fun x => key x = k).map f).getD 0) ks' =
          tally (fun k => ((l.find? fun x => key x = k).map f).getD 0) ks' := by
      intro ks' ha
      refine tally_congr fun k hk => ?_
      rw [find?_cons_of_neg]
      simp only [decide_eq_true_eq]
      rintro rfl
      exact ha hk
    rw [tally_cons]
    by_cases ha : key a ∈ ks
    · rw [← tally_erase_add ha, hr _ (hks.not_mem_erase), find?_cons_of_pos (by simp)]
      have := ih (hks.erase (key a))
      simp only [Option.map_some, Option.getD_some]
      omega
    · rw [hr _ ha]
      exact (ih hks).trans (Nat.le_add_left _ _)

/-! ## Erasing from the back -/

/-- Erase the positions `is`, one after the other. -/
def eraseMarked (l : List α) (is : List ℕ) : List α := is.foldl List.eraseIdx l

theorem eraseMarked_sublist (l : List α) (is : List ℕ) : (eraseMarked l is).Sublist l := by
  induction is generalizing l with
  | nil => exact .refl _
  | cons i is ih => exact (ih _).trans (eraseIdx_sublist l i)

theorem map_eraseMarked {β : Type v} (f : α → β) (l : List α) (is : List ℕ) :
    (eraseMarked l is).map f = eraseMarked (l.map f) is := by
  induction is generalizing l with
  | nil => rfl
  | cons i is ih =>
    rw [eraseMarked, eraseMarked, foldl_cons, foldl_cons, eraseIdx_map]
    exact ih _

/-- **Only unmarked elements are left**, if the marks come in descending order. -/
theorem forall_mem_eraseMarked {P : α → Prop} {is : List ℕ} (his : is.Pairwise (· > ·))
    (h : ∀ i a, l[i]? = some a → P a ∨ i ∈ is) : ∀ a ∈ eraseMarked l is, P a := by
  induction is generalizing l with
  | nil =>
    intro a ha
    obtain ⟨i, hi⟩ := mem_iff_getElem?.1 ha
    exact (h i a hi).resolve_right not_mem_nil
  | cons i is ih =>
    rw [pairwise_cons] at his
    refine ih his.2 fun j a ha => ?_
    rw [getElem?_eraseIdx] at ha
    split at ha
    · -- below the erased position nothing has moved
      rename_i hj
      rcases h j a ha with hP | hmem
      · exact .inl hP
      · exact .inr ((mem_cons.1 hmem).resolve_left hj.ne)
    · -- above it, the element came from `j + 1`, which no later mark reaches
      rename_i hj
      refine .inl ((h (j + 1) a ha).resolve_right fun hmem => ?_)
      rcases mem_cons.1 hmem with heq | hmem
      · omega
      · have := his.1 _ hmem
        omega

end OneChain.Lib
