import OneChain.Lib.Keyed

/-!
# Maps and sets kept in the order of their keys

An `OrdMap` is a list of entries in strictly increasing order of the keys, so that a map has one
representation and iteration visits the keys in order. A set is a map to `Unit`.

* `OrdMap.mem_entries` — an entry of the list is what a lookup finds.
* `OrdMap.get?_insert`, `OrdMap.get?_erase`, `OrdMap.get?_filter` — what each operation does to a
  lookup.
* `OrdMap.get?_foldl_insert` — a list of entries written one after the other.
* `OrdMap.entries_perm_erase`, `OrdMap.entries_perm_insert` — the entries after a removal and after
  a write, from which sizes and sums follow.
* `OrdMap.ext_get?` — two maps with the same lookups are the same.
* `OrdMap.first?_eq_some`, `OrdMap.last?_eq_some` — the ends are the least and the greatest key.
* `OrdMap.get?_popWhile` — what is left after keys were taken off the front.
* `OrdMap.sum_values_insert` — a sum over the values when one of them is replaced.
-/

namespace OneChain.Lib

open List

universe u v

/-- Entries in the order of their keys, no key twice. -/
structure OrdMap (κ : Type u) (ν : Type v) [LinearOrder κ] where
  entries : List (κ × ν)
  sorted : entries.Pairwise fun a b => a.1 < b.1

/-- A set in the order of its elements. -/
abbrev OrdSet (κ : Type u) [LinearOrder κ] := OrdMap κ Unit

namespace OrdMap

variable {κ : Type u} {ν : Type v} [LinearOrder κ] {m m' : OrdMap κ ν} {j k : κ} {v w : ν}

instance [DecidableEq ν] : DecidableEq (OrdMap κ ν) := fun a b =>
  decidable_of_iff (a.entries = b.entries) (by cases a; cases b; simp)

def empty : OrdMap κ ν := ⟨[], .nil⟩

def keys (m : OrdMap κ ν) : List κ := m.entries.map Prod.fst

def values (m : OrdMap κ ν) : List ν := m.entries.map Prod.snd

def get? (m : OrdMap κ ν) (k : κ) : Option ν := (m.entries.find? fun e => e.1 = k).map Prod.snd

instance : Membership κ (OrdMap κ ν) := ⟨fun m k => (m.get? k).isSome⟩

instance : Decidable (k ∈ m) := inferInstanceAs (Decidable ((m.get? k).isSome = true))

theorem mem_def : k ∈ m ↔ (m.get? k).isSome := Iff.rfl

theorem nodup_keys (m : OrdMap κ ν) : (m.entries.map Prod.fst).Nodup :=
  (pairwise_map.2 (m.sorted.imp ne_of_lt))

/-! ## Lookup -/

theorem mem_entries : (k, v) ∈ m.entries ↔ m.get? k = some v := by
  rw [get?, Option.map_eq_some_iff]
  constructor
  · intro h
    exact ⟨(k, v), (find?_key m.nodup_keys).2 ⟨h, rfl⟩, rfl⟩
  · rintro ⟨⟨j, w⟩, hf, rfl⟩
    obtain ⟨hmem, rfl⟩ := (find?_key m.nodup_keys).1 hf
    exact hmem

theorem mem_iff : k ∈ m ↔ ∃ v, m.get? k = some v := by
  rw [mem_def, Option.isSome_iff_exists]

theorem notMem_iff : k ∉ m ↔ m.get? k = none := by
  rw [mem_def, Bool.not_eq_true, Option.isSome_eq_false_iff, Option.isNone_iff_eq_none]

variable {α : Type*} {f : α → κ} {g : α → ν} {l : List (κ × ν)} {batch : OrdMap κ ν}

/-- Maps that differ only in parts of their values have the same keys. -/
theorem mem_congr {f g : ν → α} (h : (m.get? k).map f = (m'.get? k).map g) : k ∈ m ↔ k ∈ m' := by
  have hs := congrArg Option.isSome h
  rw [Option.isSome_map, Option.isSome_map] at hs
  rw [mem_def, mem_def, hs]

theorem map_get?_congr {f : ν → α} (hmem : k ∈ m ↔ k ∈ m')
    (h : ∀ v v', m.get? k = some v → m'.get? k = some v' → f v = f v') :
    (m.get? k).map f = (m'.get? k).map f := by
  by_cases hk : k ∈ m
  · obtain ⟨v, hv⟩ := mem_iff.1 hk
    obtain ⟨v', hv'⟩ := mem_iff.1 (hmem.1 hk)
    rw [hv, hv', Option.map_some, Option.map_some, h v v' hv hv']
  · rw [notMem_iff.1 hk, notMem_iff.1 (hmem.not.1 hk)]

theorem mem_keys : k ∈ m.keys ↔ k ∈ m := by
  simp only [keys, mem_map, Prod.exists, exists_and_right, exists_eq_right, mem_entries, mem_iff]

theorem mem_values : v ∈ m.values ↔ ∃ k, m.get? k = some v := by
  simp only [values, mem_map, Prod.exists, exists_eq_right, mem_entries]

theorem ext_get? (h : ∀ k, m.get? k = m'.get? k) : m = m' := by
  obtain ⟨l, hl⟩ := m
  obtain ⟨l', hl'⟩ := m'
  have hp : l.Perm l' := by
    refine (perm_ext_iff_of_nodup ?_ ?_).2 fun e => ?_
    · exact (nodup_keys ⟨l, hl⟩).of_map
    · exact (nodup_keys ⟨l', hl'⟩).of_map
    · obtain ⟨k, v⟩ := e
      have hm := mem_entries (m := ⟨l, hl⟩) (k := k) (v := v)
      rw [h k] at hm
      exact hm.trans mem_entries.symm
  congr
  exact hp.eq_of_pairwise (fun a b _ _ hab hba => absurd hab (lt_asymm hba)) hl hl'

/-- A sorted list of what lookups find is the list of entries. -/
theorem entries_eq (hl : l.Pairwise fun a b => a.1 < b.1)
    (h : ∀ k v, (k, v) ∈ l ↔ m.get? k = some v) : m.entries = l := by
  have hm : m = ⟨l, hl⟩ := by
    refine ext_get? fun k => Option.ext fun v => ?_
    rw [← h k v]
    exact mem_entries (m := ⟨l, hl⟩)
  rw [hm]

@[simp] theorem get?_empty : (empty : OrdMap κ ν).get? k = none := rfl

@[simp] theorem notMem_empty : k ∉ (empty : OrdMap κ ν) := by
  simp [mem_def]

theorem set_ext {s t : OrdSet κ} (h : ∀ k, k ∈ s ↔ k ∈ t) : s = t := by
  refine ext_get? fun k => ?_
  have hk := h k
  rw [mem_def, mem_def] at hk
  cases hs : s.get? k <;> cases ht : t.get? k <;> simp_all

/-! ## Updates -/

def insertEntry (k : κ) (v : ν) : List (κ × ν) → List (κ × ν)
  | [] => [(k, v)]
  | e :: l =>
    if k < e.1 then (k, v) :: e :: l
    else if k = e.1 then (k, v) :: l
    else e :: insertEntry k v l

theorem mem_insertEntry (hl : l.Pairwise fun a b => a.1 < b.1) {e : κ × ν} :
    e ∈ insertEntry k v l ↔ e = (k, v) ∨ e ∈ l ∧ e.1 ≠ k := by
  induction l with
  | nil => simp [insertEntry]
  | cons a l ih =>
    obtain ⟨ha, hl⟩ := pairwise_cons.1 hl
    rw [insertEntry]
    by_cases hlt : k < a.1
    · have hne : ∀ b ∈ a :: l, b.1 ≠ k := by
        intro b hb
        rcases mem_cons.1 hb with rfl | hb
        · exact ne_of_gt hlt
        · exact ne_of_gt (hlt.trans (ha b hb))
      rw [if_pos hlt, mem_cons]
      exact or_congr_right ⟨fun h => ⟨h, hne e h⟩, And.left⟩
    · rw [if_neg hlt]
      by_cases heq : k = a.1
      · rw [if_pos heq, mem_cons, mem_cons]
        subst heq
        refine or_congr_right ⟨fun h => ⟨.inr h, ne_of_gt (ha e h)⟩, ?_⟩
        rintro ⟨rfl | h, hne⟩
        · exact absurd rfl hne
        · exact h
      · rw [if_neg heq, mem_cons, mem_cons, ih hl]
        constructor
        · rintro (rfl | rfl | ⟨h, hne⟩)
          · exact .inr ⟨.inl rfl, Ne.symm heq⟩
          · exact .inl rfl
          · exact .inr ⟨.inr h, hne⟩
        · rintro (rfl | ⟨rfl | h, hne⟩)
          · exact .inr (.inl rfl)
          · exact .inl rfl
          · exact .inr (.inr ⟨h, hne⟩)

theorem sorted_insertEntry (hl : l.Pairwise fun a b => a.1 < b.1) :
    (insertEntry k v l).Pairwise fun a b => a.1 < b.1 := by
  induction l with
  | nil => simp [insertEntry]
  | cons a l ih =>
    obtain ⟨ha, ht⟩ := pairwise_cons.1 hl
    rw [insertEntry]
    by_cases hlt : k < a.1
    · rw [if_pos hlt]
      refine pairwise_cons.2 ⟨fun b hb => ?_, hl⟩
      rcases mem_cons.1 hb with rfl | hb
      · exact hlt
      · exact hlt.trans (ha b hb)
    · rw [if_neg hlt]
      by_cases heq : k = a.1
      · rw [if_pos heq]
        exact pairwise_cons.2 ⟨fun b hb => heq ▸ ha b hb, ht⟩
      · rw [if_neg heq]
        refine pairwise_cons.2 ⟨fun b hb => ?_, ih ht⟩
        rcases (mem_insertEntry ht).1 hb with rfl | ⟨hb, _⟩
        · exact lt_of_le_of_ne (not_lt.1 hlt) (Ne.symm heq)
        · exact ha b hb

def insert (m : OrdMap κ ν) (k : κ) (v : ν) : OrdMap κ ν :=
  ⟨insertEntry k v m.entries, sorted_insertEntry m.sorted⟩

def filter (p : κ → ν → Bool) (m : OrdMap κ ν) : OrdMap κ ν :=
  ⟨m.entries.filter fun e => p e.1 e.2, m.sorted.filter _⟩

def erase (m : OrdMap κ ν) (k : κ) : OrdMap κ ν := m.filter fun j _ => j ≠ k

theorem get?_insert : (m.insert k v).get? j = if j = k then some v else m.get? j := by
  refine Option.ext fun w => ?_
  rw [← mem_entries]
  refine (mem_insertEntry m.sorted).trans ?_
  by_cases h : j = k
  · subst h
    simp [eq_comm]
  · simp [h, mem_entries]

@[simp] theorem get?_insert_self : (m.insert k v).get? k = some v := by
  rw [get?_insert, if_pos rfl]

theorem get?_insert_of_ne (h : j ≠ k) : (m.insert k v).get? j = m.get? j := by
  rw [get?_insert, if_neg h]

theorem get?_insert_eq_some {w : ν} :
    (m.insert k v).get? j = some w ↔ j = k ∧ v = w ∨ j ≠ k ∧ m.get? j = some w := by
  rw [get?_insert]
  by_cases h : j = k
  · simp [h]
  · simp [h]

/-- What holds of a new entry and of all others holds of the map. -/
theorem forall_get?_insert {P : κ → ν → Prop} (hnew : P k v)
    (hold : ∀ j w, m.get? j = some w → P j w) (j : κ) (w : ν)
    (h : (m.insert k v).get? j = some w) : P j w := by
  rcases get?_insert_eq_some.1 h with ⟨rfl, rfl⟩ | ⟨_, h⟩
  · exact hnew
  · exact hold j w h

theorem get?_filter {p : κ → ν → Bool} : (m.filter p).get? k = (m.get? k).filter (p k) := by
  refine Option.ext fun w => ?_
  rw [← mem_entries, Option.filter_eq_some_iff, ← mem_entries]
  exact mem_filter

theorem get?_filter_eq_some {p : κ → ν → Bool} :
    (m.filter p).get? k = some v ↔ m.get? k = some v ∧ p k v = true := by
  rw [get?_filter, Option.filter_eq_some_iff]

theorem get?_erase : (m.erase k).get? j = if j = k then none else m.get? j := by
  rw [erase, get?_filter]
  by_cases h : j = k
  · subst h
    cases m.get? j <;> simp [Option.filter]
  · cases m.get? j <;> simp [h]

theorem erase_of_get?_eq_none (h : m.get? k = none) : m.erase k = m := by
  refine ext_get? fun j => ?_
  rw [get?_erase]
  by_cases hj : j = k
  · rw [if_pos hj, hj, h]
  · rw [if_neg hj]

theorem mem_filter_keys {p : κ → Bool} : j ∈ m.filter (fun k _ => p k) ↔ j ∈ m ∧ p j = true := by
  rw [mem_def, get?_filter, mem_def]
  cases m.get? j with
  | none => simp
  | some w => simp [Option.filter_some]

theorem get?_erase_eq_some : (m.erase k).get? j = some v ↔ j ≠ k ∧ m.get? j = some v := by
  rw [get?_erase]
  by_cases h : j = k
  · simp [h]
  · simp [h]

theorem get?_of_erase (h : (m.erase k).get? j = some v) : m.get? j = some v :=
  (get?_erase_eq_some.1 h).2

@[simp] theorem mem_insert : j ∈ m.insert k v ↔ j = k ∨ j ∈ m := by
  rw [mem_def, get?_insert]
  by_cases h : j = k
  · simp [h]
  · simp [h, mem_def]

@[simp] theorem mem_erase : j ∈ m.erase k ↔ j ≠ k ∧ j ∈ m := by
  rw [mem_def, get?_erase]
  by_cases h : j = k
  · simp [h]
  · simp [h, mem_def]

/-- A list of entries written one after the other, where those with the key `k` agree. -/
theorem get?_foldl_insert_of {l : List α} {o : Option ν} (hl : ∀ a ∈ l, f a = k → o = some (g a))
    (m : OrdMap κ ν) : (l.foldl (fun m a => m.insert (f a) (g a)) m).get? k =
      if k ∈ l.map f then o else m.get? k := by
  induction l generalizing m with
  | nil => rfl
  | cons a l ih =>
    rw [forall_mem_cons] at hl
    rw [foldl_cons, ih hl.2, get?_insert, map_cons]
    by_cases hmem : k ∈ l.map f
    · rw [if_pos hmem, if_pos (mem_cons_of_mem _ hmem)]
    · rw [if_neg hmem]
      by_cases hk : k = f a
      · rw [if_pos hk, if_pos (hk ▸ mem_cons_self), hl.1 hk.symm]
      · rw [if_neg hk, if_neg (by simp only [mem_cons, hk, hmem, or_self, not_false_iff])]

theorem get?_foldl_insert {l : List α} (hl : ∀ a ∈ l, ∀ b ∈ l, f a = f b → g a = g b)
    (m : OrdMap κ ν) :
    (l.foldl (fun m a => m.insert (f a) (g a)) m).get? k = some v ↔
      (∃ a ∈ l, f a = k ∧ g a = v) ∨ (∀ a ∈ l, f a ≠ k) ∧ m.get? k = some v := by
  by_cases hk : ∃ a ∈ l, f a = k
  · obtain ⟨a, ha, rfl⟩ := hk
    rw [get?_foldl_insert_of fun b hb hba => congrArg some (hl a ha b hb hba.symm),
      if_pos (mem_map_of_mem ha), Option.some.injEq]
    constructor
    · exact fun h => .inl ⟨a, ha, rfl, h⟩
    · rintro (⟨b, hb, hba, rfl⟩ | ⟨hne, _⟩)
      · exact hl a ha b hb hba.symm
      · exact absurd rfl (hne a ha)
  · rw [get?_foldl_insert_of (o := none) fun a ha hak => absurd ⟨a, ha, hak⟩ hk,
      if_neg (mt mem_map.1 hk)]
    push Not at hk
    constructor
    · exact fun h => .inr ⟨hk, h⟩
    · rintro (⟨a, ha, hak, _⟩ | ⟨_, h⟩)
      · exact absurd hak (hk a ha)
      · exact h

/-- A map that is written from a list of entries, by what the list has for a key. -/
theorem get?_foldl_insert_empty {l : List α} {o : Option ν}
    (h : ∀ v, o = some v ↔ ∃ a ∈ l, f a = k ∧ g a = v) :
    (l.foldl (fun m a => m.insert (f a) (g a)) empty).get? k = o := by
  rw [get?_foldl_insert_of fun a ha hk => (h _).2 ⟨a, ha, hk, rfl⟩]
  split
  next => rfl
  next hmem =>
    refine (Option.eq_none_iff_forall_ne_some.2 fun v hv => ?_).symm
    obtain ⟨a, ha, hk, _⟩ := (h v).1 hv
    exact hmem (mem_map.2 ⟨a, ha, hk⟩)

/-- The entries of `batch` are written over those of `m`. -/
def insertBatch (m batch : OrdMap κ ν) : OrdMap κ ν :=
  batch.entries.foldl (fun m e => m.insert e.1 e.2) m

theorem get?_insertBatch : (m.insertBatch batch).get? k = (batch.get? k).or (m.get? k) := by
  rw [insertBatch, get?_foldl_insert_of fun e he hk => hk ▸ mem_entries.1 he]
  split
  next hmem =>
    obtain ⟨w, hw⟩ := mem_iff.1 (mem_keys.1 hmem)
    rw [hw, Option.some_or]
  next hmem => rw [notMem_iff.1 (mt mem_keys.2 hmem), Option.none_or]

theorem insertBatch_insert :
    m.insertBatch (batch.insert k v) = (m.insertBatch batch).insert k v := by
  refine ext_get? fun j => ?_
  rw [get?_insertBatch, get?_insert, get?_insert, get?_insertBatch]
  split <;> rfl

theorem exists_of_get?_foldl_insert {l : List α}
    (h : (l.foldl (fun m a => m.insert (f a) (g a)) m).get? k = some v) :
    (∃ a ∈ l, f a = k ∧ g a = v) ∨ m.get? k = some v := by
  induction l generalizing m with
  | nil => exact .inr h
  | cons a l ih =>
    rcases ih h with ⟨b, hb, hkey⟩ | h
    · exact .inl ⟨b, mem_cons_of_mem _ hb, hkey⟩
    · rw [get?_insert] at h
      split at h
      · rename_i heq
        exact .inl ⟨a, mem_cons_self, heq.symm, Option.some.inj h⟩
      · exact .inr h

theorem mem_foldl_insert {l : List α} :
    k ∈ l.foldl (fun m a => m.insert (f a) (g a)) m ↔ (∃ a ∈ l, f a = k) ∨ k ∈ m := by
  induction l generalizing m with
  | nil => simp
  | cons a l ih =>
    rw [foldl_cons, ih, mem_insert, exists_mem_cons_iff, or_comm (a := f a = k), or_assoc, eq_comm]

/-! ## Sizes -/

theorem entries_eq_nil : m.entries = [] ↔ ∀ k, k ∉ m := by
  constructor
  · intro h k
    rw [← mem_keys, keys, h]
    simp
  · intro h
    refine eq_nil_iff_forall_not_mem.2 fun e he => h e.1 ?_
    rw [← mem_keys]
    exact mem_map_of_mem he

theorem nodup_entries (m : OrdMap κ ν) : m.entries.Nodup := .of_map _ m.nodup_keys

theorem entries_perm_erase (h : m.get? k = some v) :
    m.entries.Perm ((k, v) :: (m.erase k).entries) := by
  refine (perm_ext_iff_of_nodup m.nodup_entries ?_).2 fun e => ?_
  · refine nodup_cons.2 ⟨fun hmem => ?_, nodup_entries _⟩
    rw [mem_entries, get?_erase, if_pos rfl] at hmem
    cases hmem
  · obtain ⟨j, w⟩ := e
    rw [mem_cons, mem_entries, mem_entries, get?_erase]
    by_cases hj : j = k
    · subst hj
      simp [h, eq_comm]
    · simp [hj]

theorem entries_perm_insert : (m.insert k v).entries.Perm ((k, v) :: (m.erase k).entries) := by
  have he : (m.insert k v).erase k = m.erase k := by
    refine ext_get? fun j => ?_
    rw [get?_erase, get?_erase, get?_insert]
    by_cases hj : j = k
    · rw [if_pos hj, if_pos hj]
    · rw [if_neg hj, if_neg hj, if_neg hj]
  rw [← he]
  exact entries_perm_erase get?_insert_self

theorem length_erase (h : k ∈ m) : (m.erase k).entries.length + 1 = m.entries.length := by
  obtain ⟨v, hv⟩ := mem_iff.1 h
  exact (entries_perm_erase hv).length_eq.symm

theorem length_insert_le : (m.insert k v).entries.length ≤ m.entries.length + 1 := by
  rw [entries_perm_insert.length_eq, length_cons]
  exact Nat.succ_le_succ (length_filter_le _ _)

theorem length_insert (h : k ∈ m) : (m.insert k v).entries.length = m.entries.length :=
  entries_perm_insert.length_eq.trans (length_erase h)

theorem length_lt {μ : Type*} {m' : OrdMap κ μ} (h : ∀ j ∈ m', j ∈ m ∧ j ≠ k) (hk : k ∈ m) :
    m'.entries.length < m.entries.length := by
  have hn : (k :: m'.keys).Nodup :=
    nodup_cons.2 ⟨fun hmem => (h k (mem_keys.1 hmem)).2 rfl, m'.nodup_keys⟩
  have hsub : k :: m'.keys ⊆ m.keys := by
    intro j hj
    rw [mem_keys]
    rcases mem_cons.1 hj with rfl | hj
    · exact hk
    · exact (h j (mem_keys.1 hj)).1
  have hle := (hn.subperm hsub).length_le
  rw [length_cons, keys, keys, length_map, length_map] at hle
  exact hle

theorem entries_perm_foldl_insert (hl : (l.map Prod.fst).Nodup) (hm : ∀ e ∈ l, e.1 ∉ m) :
    (l.foldl (fun m e => m.insert e.1 e.2) m).entries.Perm (l ++ m.entries) := by
  induction l generalizing m with
  | nil => rfl
  | cons e l ih =>
    obtain ⟨hnew, hl⟩ := nodup_cons.1 hl
    have hw : (m.insert e.1 e.2).entries.Perm (e :: m.entries) := by
      have hp := entries_perm_insert (m := m) (k := e.1) (v := e.2)
      rwa [erase_of_get?_eq_none (notMem_iff.1 (hm e mem_cons_self))] at hp
    refine (ih hl fun e' he' => ?_).trans ((hw.append_left l).trans perm_middle)
    rw [mem_insert, not_or]
    exact ⟨fun heq => hnew (heq ▸ mem_map_of_mem he'), hm e' (mem_cons_of_mem _ he')⟩

theorem foldl_erase (ks : List κ) (m : OrdMap κ ν) :
    ks.foldl erase m = m.filter fun k _ => decide (k ∉ ks) := by
  induction ks generalizing m with
  | nil =>
    refine ext_get? fun j => ?_
    rw [get?_filter]
    cases h : m.get? j with
    | none => simp [h]
    | some w => simp [h, Option.filter_some]
  | cons k ks ih =>
    rw [foldl_cons, ih]
    refine ext_get? fun j => ?_
    rw [get?_filter, get?_filter, get?_erase]
    by_cases hj : j = k
    · simp [hj]
    · simp [hj]

/-! ## The ends -/

def first? (m : OrdMap κ ν) : Option (κ × ν) := m.entries.head?

def last? (m : OrdMap κ ν) : Option (κ × ν) := m.entries.getLast?

theorem first?_eq_some (h : m.first? = some (k, v)) : m.get? k = some v ∧ ∀ j ∈ m, k ≤ j := by
  obtain ⟨l, hl⟩ := m
  cases l with
  | nil => cases h
  | cons e l =>
    cases h
    refine ⟨mem_entries.1 mem_cons_self, fun j hj => ?_⟩
    obtain ⟨w, hw⟩ := mem_iff.1 hj
    rcases mem_cons.1 (mem_entries.2 hw) with heq | hmem
    · cases heq
      exact le_rfl
    · exact le_of_lt ((pairwise_cons.1 hl).1 (j, w) hmem)

theorem first?_eq_none : m.first? = none ↔ ∀ k, k ∉ m := by
  rw [first?, head?_eq_none_iff, entries_eq_nil]

/-- Drop the least keys as long as they have a property. -/
def popWhile (p : κ → Bool) (m : OrdMap κ ν) : OrdMap κ ν :=
  ⟨m.entries.dropWhile fun e => p e.1, m.sorted.sublist (dropWhile_sublist _)⟩

/-- A property that smaller keys inherit is gone afterwards. -/
theorem get?_popWhile {p : κ → Bool} (hp : ∀ {j k}, j ≤ k → p k = true → p j = true) :
    (m.popWhile p).get? k = if p k then none else m.get? k := by
  have hmem : ∀ l : List (κ × ν), l.Pairwise (fun a b => a.1 < b.1) →
      ∀ e, e ∈ l.dropWhile (fun e => p e.1) ↔ e ∈ l ∧ p e.1 = false := by
    intro l hl e
    induction l with
    | nil => simp
    | cons a l ih =>
      obtain ⟨ha, hl⟩ := pairwise_cons.1 hl
      by_cases hpa : p a.1 = true
      · rw [dropWhile_cons_of_pos (p := fun e : κ × ν => p e.1) hpa, ih hl, mem_cons]
        constructor
        · rintro ⟨he, hpe⟩
          exact ⟨.inr he, hpe⟩
        · rintro ⟨rfl | he, hpe⟩
          · simp [hpa] at hpe
          · exact ⟨he, hpe⟩
      · rw [dropWhile_cons_of_neg (p := fun e : κ × ν => p e.1) hpa]
        refine ⟨fun he => ⟨he, ?_⟩, And.left⟩
        rcases mem_cons.1 he with rfl | he
        · exact Bool.not_eq_true _ ▸ hpa
        · by_contra hpe
          exact hpa (hp (ha e he).le (by simpa using hpe))
  refine Option.ext fun v => ?_
  rw [← mem_entries]
  refine (hmem _ m.sorted (k, v)).trans ?_
  cases hpk : p k <;> simp [mem_entries]

theorem last?_eq_some (h : m.last? = some (k, v)) : m.get? k = some v ∧ ∀ j ∈ m, j ≤ k := by
  obtain ⟨l, hl⟩ := m
  obtain ⟨l', rfl⟩ := getLast?_eq_some_iff.1 h
  refine ⟨mem_entries.1 (by simp), fun j hj => ?_⟩
  obtain ⟨w, hw⟩ := mem_iff.1 hj
  rcases mem_append.1 (mem_entries.2 hw) with hmem | hmem
  · exact le_of_lt ((pairwise_append.1 hl).2.2 (j, w) hmem (k, v) (by simp))
  · simp only [mem_singleton, Prod.mk.injEq] at hmem
    exact hmem.1.le

theorem last?_eq_none : m.last? = none ↔ ∀ k, k ∉ m := by
  rw [last?, getLast?_eq_none_iff, ← head?_eq_none_iff]
  exact first?_eq_none

theorem last?_insert (h : ∀ j ∈ m, j ≤ k) : (m.insert k v).last? = some (k, v) := by
  cases hl : (m.insert k v).last? with
  | none => exact absurd (mem_insert.2 (.inl rfl)) (last?_eq_none.1 hl k)
  | some e =>
    obtain ⟨j, w⟩ := e
    obtain ⟨hget, hmax⟩ := last?_eq_some hl
    have hle : j ≤ k := by
      rcases mem_insert.1 (mem_iff.2 ⟨w, hget⟩) with rfl | hj
      · exact le_rfl
      · exact h j hj
    obtain rfl : j = k := le_antisymm hle (hmax k (mem_insert.2 (.inl rfl)))
    rw [get?_insert_self] at hget
    rw [Option.some.inj hget]

theorem keys_perm_erase (h : k ∈ m) : (k :: (m.erase k).keys).Perm m.keys := by
  obtain ⟨v, hv⟩ := mem_iff.1 h
  exact ((entries_perm_erase hv).map Prod.fst).symm

theorem entries_insert_of_lt (h : ∀ e ∈ m.entries, e.1 < k) :
    (m.insert k v).entries = m.entries ++ [(k, v)] := by
  refine entries_eq ?_ fun j w => ?_
  · rw [pairwise_append]
    refine ⟨m.sorted, pairwise_singleton _ _, fun e he e' he' => ?_⟩
    rw [mem_singleton.1 he']
    exact h e he
  · rw [mem_append, mem_entries, get?_insert]
    by_cases hj : j = k
    · subst hj
      have hnew : m.get? j ≠ some w := fun hget => lt_irrefl j (h (j, w) (mem_entries.2 hget))
      simp [hnew, eq_comm]
    · simp [hj]

/-- A sum over the values when one of them is replaced. -/
theorem sum_values_insert (f : ν → ℕ) (h : m.get? k = some w) :
    ((m.insert k v).values.map f).sum + f w = (m.values.map f).sum + f v := by
  have hnew := (((entries_perm_insert (m := m) (k := k) (v := v)).map Prod.snd).map f).sum_eq
  have hold := (((entries_perm_erase h).map Prod.snd).map f).sum_eq
  simp only [map_cons, sum_cons] at hnew hold
  simp only [values]
  omega

end OrdMap

end OneChain.Lib
