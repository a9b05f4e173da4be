import OneChain.Lib.Keyed
import Mathlib.Data.List.Sort

/-!
# The roster: membership in the abstract

What the validator set is for, without stakes, pools and metadata: who is active, who joins and
who leaves at the next epoch change, and who is trusted. A `Roster` changes by `Step`s, and each
step is the work of one call on the system state.

Two properties are kept as long as one kind of step is used with care, the one by which an address
loses its trust:

* `Trustworthy` — everybody active is trusted or on the way out, everybody pending is trusted. It
  needs that trust is not taken from an address that is *pending*: such a validator joins anyway.
* `AboveFloor` — an epoch with enough validators is followed by one with enough of them. It needs
  that an *active* validator loses its trust only while there are validators to spare; whoever
  resigns is held to that.
-/

namespace OneChain.System

open Lib List

/-- Members by address; `removals` are positions in `active`. -/
structure Roster where
  (active pending removals : List ℕ)
  onlyTrusted : Bool
  trusted : List ℕ

namespace Roster

/-- The members of the next epoch, if all goes as announced. -/
def nextCount (r : Roster) : ℕ := r.active.length - r.removals.length + r.pending.length

/-- The marks in the order in which they are processed. -/
def marks (r : Roster) : List ℕ := r.removals.reverse.insertionSort (· ≥ ·)

/-- No address twice, no mark twice, and every mark on a member. -/
structure WellFormed (r : Roster) : Prop where
  addresses : (r.active ++ r.pending).Nodup
  removals_nodup : r.removals.Nodup
  removals_lt : ∀ i ∈ r.removals, i < r.active.length

inductive Event
  | idle
  | join (a : ℕ)
  | resign (i : ℕ)
  | trust (a : ℕ)
  | distrust (a : ℕ)
  | mode (onlyTrusted : Bool)
  | epoch
  deriving DecidableEq

/-- What a call does to the membership; `floor` is the smallest wanted number of members. -/
inductive Step (floor : ℕ) : Roster → Event → Roster → Prop
  | idle (r : Roster) : Step floor r .idle r
  | join {r : Roster} {a : ℕ} (htrusted : r.onlyTrusted → a ∈ r.trusted) :
    Step floor r (.join a) { r with pending := r.pending ++ [a] }
  | resign {r : Roster} {i : ℕ} (hfloor : floor ≤ r.active.length → floor < r.nextCount) :
    Step floor r (.resign i) { r with removals := r.removals ++ [i] }
  | trust (r : Roster) (a : ℕ) : Step floor r (.trust a) { r with trusted := r.trusted ++ [a] }
  /-- Nothing more happens to an address that is not active, pending or not. -/
  | distrust {r : Roster} {a : ℕ} (habs : a ∉ r.active) :
    Step floor r (.distrust a) { r with trusted := r.trusted.erase a }
  /-- An active validator is marked; the floor is not looked at. -/
  | dismiss {r : Roster} {a i : ℕ} (hi : r.active[i]? = some a) :
    Step floor r (.distrust a)
      { r with trusted := r.trusted.erase a, removals := r.removals ++ [i] }
  | mode (r : Roster) (b : Bool) : Step floor r (.mode b) { r with onlyTrusted := b }
  | epoch {r : Roster} {active : List ℕ}
    (hact : active.Sublist (eraseMarked r.active r.marks ++ r.pending.reverse)) :
    Step floor r .epoch { r with active := active, pending := [], removals := [] }

variable {floor : ℕ} {r r' : Roster} {e : Event}

theorem mem_marks {i : ℕ} : i ∈ r.marks ↔ i ∈ r.removals := by
  rw [marks, mem_insertionSort, mem_reverse]

theorem marks_descending (h : r.removals.Nodup) : r.marks.Pairwise (· > ·) := by
  have hge := pairwise_insertionSort (· ≥ ·) r.removals.reverse
  have hne : r.marks.Nodup := (perm_insertionSort _ _).nodup_iff.2 (nodup_reverse.2 h)
  exact (hge.and hne).imp fun h => lt_of_le_of_ne h.1 h.2.symm

theorem WellFormed.length_removals_le (h : r.WellFormed) : r.removals.length ≤ r.active.length := by
  have hsub : r.removals ⊆ List.range r.active.length := fun i hi =>
    mem_range.2 (h.removals_lt i hi)
  simpa using (subperm_of_subset h.removals_nodup hsub).length_le

theorem Step.removals_of_epoch (h : Step floor r .epoch r') : r'.removals = [] := by
  cases h
  rfl

/-- The active validators stay, or nobody is pending or marked any more, and whoever is active was
pending, or active and not marked. -/
def AsAnnounced (r r' : Roster) : Prop :=
  r'.active = r.active ∨ r'.pending = [] ∧ r'.removals = [] ∧
    ∀ a ∈ r'.active, a ∈ r.pending ∨ ∃ i ∉ r.removals, r.active[i]? = some a

theorem Step.asAnnounced (h : Step floor r e r') (hw : r.WellFormed) : AsAnnounced r r' := by
  cases h with
  | epoch hact =>
    refine .inr ⟨rfl, rfl, fun a ha => ?_⟩
    rcases mem_append.1 (hact.subset ha) with hold | hnew
    · refine .inr (forall_mem_eraseMarked (P := fun a => ∃ i ∉ r.removals, r.active[i]? = some a)
        (marks_descending hw.removals_nodup) (fun i b hb => ?_) a hold)
      by_cases hi : i ∈ r.removals
      · exact .inr (mem_marks.2 hi)
      · exact .inl ⟨i, hi, hb⟩
    · exact .inl (mem_reverse.1 hnew)
  | _ => exact .inl rfl

/-! ## Trust -/

/-- Everybody active is trusted or marked, and everybody pending is trusted. -/
structure Trustworthy (r : Roster) : Prop where
  active : ∀ i a, r.active[i]? = some a → a ∈ r.trusted ∨ i ∈ r.removals
  pending : ∀ a ∈ r.pending, a ∈ r.trusted

/-- If everybody marked is trusted, then everybody active is. -/
theorem Trustworthy.all (ht : r.Trustworthy)
    (hm : ∀ i ∈ r.removals, ∀ a, r.active[i]? = some a → a ∈ r.trusted) :
    ∀ a ∈ r.active, a ∈ r.trusted := by
  intro a ha
  obtain ⟨i, hi⟩ := getElem?_of_mem ha
  rcases ht.active i a hi with htr | hmem
  · exact htr
  · exact hm i hmem a hi

/-- **After the epoch change everybody active is trusted.** -/
theorem Trustworthy.after_epoch (ht : r.Trustworthy) (hw : r.WellFormed) {active : List ℕ}
    (hact : active.Sublist (eraseMarked r.active r.marks ++ r.pending.reverse)) :
    ∀ a ∈ active, a ∈ r.trusted := by
  intro a ha
  rcases mem_append.1 (hact.subset ha) with ha | ha
  · refine forall_mem_eraseMarked (marks_descending hw.removals_nodup) (fun i b hb => ?_) a ha
    exact (ht.active i b hb).imp_right mem_marks.2
  · exact ht.pending a (mem_reverse.1 ha)

/-- **One step keeps the trust**, if members join while trust is required and nobody pending
loses it. -/
theorem Trustworthy.step (ht : r.Trustworthy) (hw : r.WellFormed) (hmode : r.onlyTrusted = true)
    (hpend : ∀ a, e = .distrust a → a ∉ r.pending) (h : Step floor r e r') : r'.Trustworthy := by
  cases h with
  | idle => exact ht
  | join htrusted =>
    refine ⟨ht.active, fun a ha => ?_⟩
    rcases mem_append.1 ha with ha | ha
    · exact ht.pending a ha
    · exact mem_singleton.1 ha ▸ htrusted hmode
  | resign =>
    exact ⟨fun i a ha => (ht.active i a ha).imp_right (mem_append_left _), ht.pending⟩
  | trust =>
    exact ⟨fun i a ha => (ht.active i a ha).imp_left (mem_append_left _),
      fun a ha => mem_append_left _ (ht.pending a ha)⟩
  | distrust habs =>
    refine ⟨fun i b hb => ?_, fun b hb => ?_⟩
    · refine (ht.active i b hb).imp_left fun hmem => ?_
      refine (mem_erase_of_ne ?_).2 hmem
      rintro rfl
      exact habs (mem_of_getElem? hb)
    · refine (mem_erase_of_ne ?_).2 (ht.pending b hb)
      rintro rfl
      exact hpend b rfl hb
  | @dismiss a i hi =>
    refine ⟨fun j b hb => ?_, fun b hb => ?_⟩
    · -- the one that loses its trust is the one that is marked
      by_cases hba : b = a
      · subst hba
        have hnodup : (r.active.map fun x => x).Nodup := by
          simpa using (nodup_append.1 hw.addresses).1
        have hij : i = j := index_unique hnodup hi hb rfl
        exact .inr (hij ▸ mem_append_right _ (mem_singleton_self i))
      · exact (ht.active j b hb).imp (mem_erase_of_ne hba).2 (mem_append_left _)
    · refine (mem_erase_of_ne ?_).2 (ht.pending b hb)
      rintro rfl
      exact hpend b rfl hb
  | mode => exact ⟨ht.active, ht.pending⟩
  | epoch hact =>
    refine ⟨fun i a ha => .inl ?_, by simp⟩
    exact ht.after_epoch hw hact a (mem_of_getElem? ha)

/-! ## The floor -/

/-- If there are enough members now, there will be enough in the next epoch. -/
def AboveFloor (floor : ℕ) (r : Roster) : Prop := floor ≤ r.active.length → floor ≤ r.nextCount

/-- **One step keeps the floor**, if nobody active loses its trust while there is nobody to
spare. -/
theorem AboveFloor.step (ha : AboveFloor floor r) (hw : r'.WellFormed)
    (hs : ∀ a, e = .distrust a → a ∈ r.active → floor ≤ r.active.length → floor < r.nextCount)
    (h : Step floor r e r') : AboveFloor floor r' := by
  intro he
  cases h with
  | idle | trust | distrust | mode => exact ha he
  | join =>
    have := ha he
    simp only [nextCount, length_append] at *
    omega
  | resign hf =>
    simp only [nextCount, length_append, length_singleton] at *
    omega
  | dismiss hi =>
    have := hs _ rfl (mem_of_getElem? hi) he
    simp only [nextCount, length_append, length_singleton] at *
    omega
  | epoch => simpa [nextCount] using he

end Roster

end OneChain.System
