import OneChain.Lib.Ordered

/-!
# Reference-counted maps

A map in front of a table, for writes that have not reached the table yet. Each write counts its key
up and sets its value; when a write has reached the table its key is counted down, and an entry is
dropped when its count is zero. The writes are a queue: they leave in the order in which they came.

* `RefMap.Represents` — the map holds exactly the queued writes: for each key how many there are and
  the value of the last one. It is kept by a new write and by the oldest write leaving.
* `RefMap.Represents.read` — reading the map, and the table where the map has nothing, is reading
  the table with all queued writes applied.
* `Buffered` — the same for a queue whose entries write several keys each, with the table that the
  entries reach in the end.
-/

namespace OneChain.Lib

open List OrdMap

universe u v

variable {κ : Type u} {ν : Type v} [LinearOrder κ]

/-! ## Writes to a table -/

/-- The value of the last write to a key. -/
def lastWrite (ws : List (κ × ν)) (k : κ) : Option ν :=
  (ws.reverse.find? fun w => w.1 = k).map Prod.snd

variable (table : OrdMap κ ν)

def writeAll (ws : List (κ × ν)) : OrdMap κ ν := ws.foldl (fun m w => m.insert w.1 w.2) table

theorem writeAll_append (ws ws' : List (κ × ν)) :
    writeAll table (ws ++ ws') = writeAll (writeAll table ws) ws' :=
  foldl_append

theorem lastWrite_append_singleton (ws : List (κ × ν)) (w : κ × ν) (k : κ) :
    lastWrite (ws ++ [w]) k = if w.1 = k then some w.2 else lastWrite ws k := by
  rw [lastWrite]
  by_cases h : w.1 = k
  · simp [h]
  · simp [h, lastWrite]

theorem lastWrite_cons (w : κ × ν) (ws : List (κ × ν)) (k : κ) :
    lastWrite (w :: ws) k = (lastWrite ws k).or (if w.1 = k then some w.2 else none) := by
  rw [lastWrite, reverse_cons, find?_append, lastWrite]
  cases ws.reverse.find? fun w => w.1 = k with
  | some x => rfl
  | none =>
    by_cases h : w.1 = k
    · simp [h]
    · simp [h]

theorem lastWrite_eq_none {ws : List (κ × ν)} {k : κ} :
    lastWrite ws k = none ↔ (ws.map Prod.fst).count k = 0 := by
  rw [count_eq_zero, lastWrite, Option.map_eq_none_iff, find?_eq_none, mem_map]
  constructor
  · rintro h ⟨w, hw, rfl⟩
    simpa using h w (mem_reverse.2 hw)
  · intro h w hw
    simpa using fun hk => h ⟨w, mem_reverse.1 hw, hk⟩

theorem get?_writeAll (ws : List (κ × ν)) (k : κ) :
    (writeAll table ws).get? k = (lastWrite ws k).or (table.get? k) := by
  induction ws generalizing table with
  | nil => rfl
  | cons w ws ih =>
    rw [writeAll, foldl_cons, ← writeAll, ih, get?_insert, lastWrite_cons]
    cases lastWrite ws k with
    | some v => rfl
    | none =>
      by_cases h : k = w.1
      · simp [h]
      · simp [h, Ne.symm h]

/-! ## The map -/

/-- A map whose entries count how often their key was inserted. -/
structure RefMap (κ : Type u) (ν : Type v) [LinearOrder κ] where
  map : OrdMap κ (ℕ × ν)

namespace RefMap

def empty : RefMap κ ν := ⟨.empty⟩

variable (m : RefMap κ ν)

def insert (k : κ) (v : ν) : RefMap κ ν :=
  match m.map.get? k with
  | some (refCount, _) => ⟨m.map.insert k (refCount + 1, v)⟩
  | none => ⟨m.map.insert k (1, v)⟩

/-- The map after one removal, and whether the key was there. -/
def remove (k : κ) : RefMap κ ν × Bool :=
  match m.map.get? k with
  | some (refCount, v) =>
    (if refCount - 1 = 0 then ⟨m.map.erase k⟩ else ⟨m.map.insert k (refCount - 1, v)⟩, true)
  | none => (m, false)

def get (k : κ) : Option ν := (m.map.get? k).map Prod.snd

def containsKey (k : κ) : Bool := (m.map.get? k).isSome

def insertAll (ws : List (κ × ν)) : RefMap κ ν := ws.foldl (fun m w => m.insert w.1 w.2) m

def removeAll (ks : List κ) : RefMap κ ν := ks.foldl (fun m k => (m.remove k).1) m

/-- The map holds the queued writes. -/
def Represents (ws : List (κ × ν)) : Prop :=
  ∀ k, m.map.get? k = (lastWrite ws k).map fun v => ((ws.map Prod.fst).count k, v)

theorem represents_empty : Represents (empty : RefMap κ ν) [] := fun _ => rfl

variable {m} {ws ws' : List (κ × ν)} {k : κ} {v : ν}

theorem Represents.insert (h : Represents m ws) : Represents (m.insert k v) (ws ++ [(k, v)]) := by
  intro j
  have hc : ((ws ++ [(k, v)]).map Prod.fst).count j =
      (ws.map Prod.fst).count j + if k = j then 1 else 0 := by
    rw [map_append, count_append, map_singleton, count_singleton]
    simp
  rw [lastWrite_append_singleton, hc]
  have hk := h k
  unfold RefMap.insert
  cases hget : m.map.get? k with
  | some e =>
    obtain ⟨refCount, w⟩ := e
    rw [hget] at hk
    obtain ⟨x, _, hx⟩ := Option.map_eq_some_iff.1 hk.symm
    change (m.map.insert k (refCount + 1, v)).get? j = _
    rw [get?_insert]
    by_cases hj : k = j
    · subst hj
      rw [if_pos rfl, if_pos rfl, if_pos rfl, ← (Prod.mk.inj hx).1]
      rfl
    · rw [if_neg (Ne.symm hj), if_neg hj, if_neg hj, h j]
      rfl
  | none =>
    rw [hget, eq_comm, Option.map_eq_none_iff, lastWrite_eq_none] at hk
    change (m.map.insert k (1, v)).get? j = _
    rw [get?_insert]
    by_cases hj : k = j
    · subst hj
      rw [if_pos rfl, if_pos rfl, if_pos rfl, hk]
      rfl
    · rw [if_neg (Ne.symm hj), if_neg hj, if_neg hj, h j]
      rfl

theorem Represents.insertAll (h : Represents m ws) : Represents (m.insertAll ws') (ws ++ ws') := by
  induction ws' generalizing m ws with
  | nil => rwa [append_nil]
  | cons w ws' ih =>
    have hw := ih (h.insert (k := w.1) (v := w.2))
    rwa [append_assoc, singleton_append] at hw

theorem Represents.remove (h : Represents m ((k, v) :: ws)) :
    Represents (m.remove k).1 ws ∧ (m.remove k).2 = true := by
  have hk := h k
  rw [map_cons, count_cons_self] at hk
  obtain ⟨w, hw⟩ : ∃ w, lastWrite ((k, v) :: ws) k = some w := by
    rw [lastWrite_cons, if_pos rfl]
    cases lastWrite ws k with
    | some w => exact ⟨w, rfl⟩
    | none => exact ⟨v, rfl⟩
  rw [hw, Option.map_some] at hk
  unfold RefMap.remove
  rw [hk]
  refine ⟨fun j => ?_, rfl⟩
  have hj := h j
  simp only [Nat.add_sub_cancel]
  by_cases hjk : j = k
  · subst hjk
    by_cases hc : (ws.map Prod.fst).count j = 0
    · rw [if_pos hc, get?_erase, if_pos rfl, lastWrite_eq_none.2 hc]
      rfl
    · rw [if_neg hc, get?_insert, if_pos rfl]
      cases hl : lastWrite ws j with
      | none => exact absurd (lastWrite_eq_none.1 hl) hc
      | some x =>
        rw [lastWrite_cons, hl] at hw
        cases hw
        rfl
  · have hke : m.map.get? j = (lastWrite ws j).map fun v => ((ws.map Prod.fst).count j, v) := by
      rw [hj, lastWrite_cons, if_neg (Ne.symm hjk), Option.or_none, map_cons,
        count_cons_of_ne (Ne.symm hjk)]
    by_cases hc : (ws.map Prod.fst).count k = 0
    · rw [if_pos hc, get?_erase, if_neg hjk, hke]
    · rw [if_neg hc, get?_insert, if_neg hjk, hke]

theorem Represents.removeAll (h : Represents m (ws ++ ws')) :
    Represents (m.removeAll (ws.map Prod.fst)) ws' := by
  induction ws generalizing m with
  | nil => exact h
  | cons w ws ih => exact ih h.remove.1

/-- **Reading through the map.** -/
theorem Represents.read (h : Represents m ws) (table : OrdMap κ ν) (k : κ) :
    (m.get k).or (table.get? k) = (writeAll table ws).get? k := by
  rw [get?_writeAll, RefMap.get, h k]
  cases lastWrite ws k <;> rfl

theorem Represents.containsKey (h : Represents m ws) (table : OrdMap κ ν) (k : κ) :
    (m.containsKey k || decide (k ∈ table)) = decide (k ∈ writeAll table ws) := by
  have hr := h.read table k
  have hmem : k ∈ writeAll table ws ↔ m.containsKey k = true ∨ k ∈ table := by
    rw [mem_def, ← hr, RefMap.get, RefMap.containsKey, mem_def]
    cases m.map.get? k with
    | some e => simp
    | none => simp
  rw [Bool.eq_iff_iff, Bool.or_eq_true, decide_eq_true_iff, decide_eq_true_iff, hmem]

end RefMap

/-! ## A buffered table -/

/-- A table behind a map, for entries that write several keys each: the entries written have reached
the table, which held `start` before, and those of the queue are in the map. -/
structure Buffered {ω : Type*} (writes : ω → List (κ × ν)) (start : OrdMap κ ν)
    (written queue : List ω)
    (m : RefMap κ ν) (table : OrdMap κ ν) : Prop where
  map : m.Represents (queue.flatMap writes)
  table : table = writeAll start (written.flatMap writes)

namespace Buffered

variable {ω : Type*} {writes : ω → List (κ × ν)} {start table : OrdMap κ ν} {written queue : List ω}
  {m : RefMap κ ν}

theorem empty (writes : ω → List (κ × ν)) (start : OrdMap κ ν) :
    Buffered writes start [] [] RefMap.empty start :=
  ⟨RefMap.represents_empty, rfl⟩

theorem push (h : Buffered writes start written queue m table) (o : ω) :
    Buffered writes start written (queue ++ [o]) (m.insertAll (writes o)) table := by
  refine ⟨?_, h.table⟩
  rw [flatMap_append, flatMap_singleton]
  exact h.map.insertAll

theorem flush {o : ω} (h : Buffered writes start written (o :: queue) m table) :
    Buffered writes start (written ++ [o]) queue (m.removeAll ((writes o).map Prod.fst))
      (writeAll table (writes o)) := by
  have hmap := h.map
  refine ⟨hmap.removeAll, ?_⟩
  rw [flatMap_append, flatMap_singleton, writeAll_append, ← h.table]

section

variable (h : Buffered writes start written queue m table)
include h

/-- **Reading through the map is reading a table that has everything.** -/
theorem read (k : κ) :
    (m.get k).or (table.get? k) = (writeAll start ((written ++ queue).flatMap writes)).get? k := by
  rw [h.map.read, h.table, ← writeAll_append, flatMap_append]

theorem read_push (o : ω) (k : κ) :
    ((m.insertAll (writes o)).get k).or (table.get? k) =
      (lastWrite (writes o) k).or ((m.get k).or (table.get? k)) := by
  rw [(h.push o).read, h.read, ← append_assoc, flatMap_append, flatMap_singleton,
    writeAll_append, get?_writeAll]

end

/-- Nothing that is read changes when an entry reaches the table. -/
theorem read_flush {o : ω} (h : Buffered writes start written (o :: queue) m table) (k : κ) :
    ((m.removeAll ((writes o).map Prod.fst)).get k).or ((writeAll table (writes o)).get? k) =
      (m.get k).or (table.get? k) := by
  rw [h.flush.read, h.read, append_assoc, singleton_append]

theorem containsKey (h : Buffered writes start written queue m table) (k : κ) :
    (m.containsKey k || decide (k ∈ table)) =
      decide (k ∈ writeAll start ((written ++ queue).flatMap writes)) := by
  have hb := h.map.containsKey table k
  rw [h.table] at hb ⊢
  rw [hb, ← writeAll_append, flatMap_append]

end Buffered

end OneChain.Lib
