import OneChain.Move.Basic
import OneChain.Lib.Keyed

/-!
# Move: vectors, `vec_set` and `vec_map`

A vector is a list. A `VecSet` lists its keys in the order of insertion and a `VecMap` its
entries; that no key occurs twice is a field of the structure, so that every function has to
keep it.
-/

namespace OneChain.Move

open Lib List

/-! ## Vectors -/

namespace Vector

variable {α : Type}

/-- `v[i]`. -/
def borrow (v : List α) (i : ℕ) : Call α := require v[i]? EINDEX_OUT_OF_BOUNDS

/-- `v.remove(i)`: the element, and the others. -/
def remove (v : List α) (i : ℕ) : Call (α × List α) := do
  let a ← borrow v i
  return (a, v.eraseIdx i)

@[simp] theorem borrow_ok {v : List α} {i : ℕ} {a : α} : borrow v i = .ok a ↔ v[i]? = some a :=
  require_ok

theorem remove_ok {v rest : List α} {i : ℕ} {a : α} (h : remove v i = .ok (a, rest)) :
    v[i]? = some a ∧ rest = v.eraseIdx i := by
  simp only [remove, ok_iff, borrow_ok] at h
  obtain ⟨_, ha, rfl, rfl⟩ := h
  exact ⟨ha, rfl⟩

end Vector

/-! ## `vec_set` -/

/-- The keys of a set, in the order of insertion. -/
structure VecSet (K : Type) where
  contents : List K
  nodup : contents.Nodup

namespace VecSet

variable {K : Type}

def EKeyAlreadyExists : Abort := .code .vecSet 0
def EKeyDoesNotExist : Abort := .code .vecSet 1

def empty : VecSet K := ⟨[], nodup_nil⟩

def singleton (k : K) : VecSet K := ⟨[k], nodup_singleton k⟩

def isEmpty (s : VecSet K) : Bool := s.contents.isEmpty

variable {k : K} {s : VecSet K}

theorem nodup_insert (s : VecSet K) (h : k ∉ s.contents) : (s.contents ++ [k]).Nodup :=
  nodup_append.2 ⟨s.nodup, nodup_singleton k, by
    rintro a ha b hb rfl
    exact h (mem_singleton.1 hb ▸ ha)⟩

variable [DecidableEq K]

def contains (s : VecSet K) (k : K) : Bool := k ∈ s.contents

def insert (s : VecSet K) (k : K) : Call (VecSet K) :=
  if h : k ∈ s.contents then .error EKeyAlreadyExists
  else .ok ⟨s.contents ++ [k], s.nodup_insert h⟩

def remove (s : VecSet K) (k : K) : Call (VecSet K) :=
  if k ∈ s.contents then .ok ⟨s.contents.erase k, s.nodup.erase k⟩
  else .error EKeyDoesNotExist

@[simp] theorem contains_iff : s.contains k = true ↔ k ∈ s.contents := by
  simp [contains]

theorem insert_ok {s' : VecSet K} (h : s.insert k = .ok s') :
    k ∉ s.contents ∧ s'.contents = s.contents ++ [k] := by
  unfold insert at h
  split at h
  · cases h
  · rename_i hk
    exact ⟨hk, congrArg contents (Except.ok.inj h).symm⟩

theorem remove_ok {s' : VecSet K} (h : s.remove k = .ok s') :
    k ∈ s.contents ∧ s'.contents = s.contents.erase k := by
  unfold remove at h
  split at h
  · rename_i hk
    exact ⟨hk, congrArg contents (Except.ok.inj h).symm⟩
  · cases h

end VecSet

/-! ## `vec_map` -/

/-- The entries of a map, in the order of insertion. -/
structure VecMap (K V : Type) where
  contents : List (K × V)
  nodupKeys : (contents.map Prod.fst).Nodup

namespace VecMap

variable {K V : Type}

def EKeyAlreadyExists : Abort := .code .vecMap 0
def EKeyDoesNotExist : Abort := .code .vecMap 1

def empty : VecMap K V := ⟨[], nodup_nil⟩

def keys (m : VecMap K V) : List K := m.contents.map Prod.fst

def size (m : VecMap K V) : ℕ := m.contents.length

variable {k : K} {m : VecMap K V}

theorem nodupKeys_insert (m : VecMap K V) (v : V) (h : k ∉ m.keys) :
    ((m.contents ++ [(k, v)]).map Prod.fst).Nodup := by
  rw [map_append]
  exact VecSet.nodup_insert ⟨m.keys, m.nodupKeys⟩ h

theorem nodupKeys_filter (m : VecMap K V) (p : K × V → Bool) :
    ((m.contents.filter p).map Prod.fst).Nodup :=
  m.nodupKeys.sublist (filter_sublist.map _)

variable [DecidableEq K]

def contains (m : VecMap K V) (k : K) : Bool := k ∈ m.keys

def tryGet (m : VecMap K V) (k : K) : Option V := (m.contents.find? fun e => e.1 = k).map Prod.snd

def get (m : VecMap K V) (k : K) : Call V := require (m.tryGet k) EKeyDoesNotExist

def insert (m : VecMap K V) (k : K) (v : V) : Call (VecMap K V) :=
  if h : k ∈ m.keys then .error EKeyAlreadyExists
  else .ok ⟨m.contents ++ [(k, v)], m.nodupKeys_insert v h⟩

def remove (m : VecMap K V) (k : K) : Call (VecMap K V) :=
  if k ∈ m.keys then .ok ⟨m.contents.filter fun e => e.1 ≠ k, m.nodupKeys_filter _⟩
  else .error EKeyDoesNotExist

/-- Write `v` through the reference to the entry of `k`. -/
def entry (k : K) (v : V) (e : K × V) : K × V := if e.1 = k then (e.1, v) else e

theorem map_fst_entry (k : K) (v : V) (l : List (K × V)) :
    (l.map (entry k v)).map Prod.fst = l.map Prod.fst := by
  rw [map_map]
  refine map_congr_left fun e _ => ?_
  by_cases hk : e.1 = k <;> simp [entry, hk]

def set (m : VecMap K V) (k : K) (v : V) : VecMap K V :=
  ⟨m.contents.map (entry k v), (map_fst_entry k v m.contents).symm ▸ m.nodupKeys⟩

/-! ### What a map holds -/

theorem insert_ok {m' : VecMap K V} {v : V} (h : m.insert k v = .ok m') :
    k ∉ m.keys ∧ m'.contents = m.contents ++ [(k, v)] := by
  unfold insert at h
  split at h
  · cases h
  · rename_i hk
    exact ⟨hk, congrArg contents (Except.ok.inj h).symm⟩

theorem insert_of_not_mem (h : k ∉ m.keys) (v : V) :
    ∃ m', m.insert k v = .ok m' ∧ m'.contents = m.contents ++ [(k, v)] :=
  ⟨_, dif_neg h, rfl⟩

theorem tryGet_eq_some {v : V} : m.tryGet k = some v ↔ (k, v) ∈ m.contents := by
  rw [tryGet, Option.map_eq_some_iff]
  constructor
  · rintro ⟨e, he, rfl⟩
    obtain ⟨hmem, rfl⟩ := (find?_key m.nodupKeys).1 he
    exact hmem
  · intro h
    exact ⟨(k, v), (find?_key m.nodupKeys).2 ⟨h, rfl⟩, rfl⟩

theorem tryGet_eq_none : m.tryGet k = none ↔ k ∉ m.keys := by
  rw [tryGet, Option.map_eq_none_iff]
  exact find?_key_none

end VecMap

end OneChain.Move
