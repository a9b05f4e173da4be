import Mathlib.Data.List.Infix
import Mathlib.Data.Set.Basic

/-!
# Regular expressions of the borrow graph

`regex.rs` of the borrow graph: an edge between two references carries simple regular expressions,
a list of labels that may end in dot star. A reference is extended by nothing, by one label or by
dot star, and the verifier asks what is left of one path when another one is taken off its front.

* `removePrefix_exact` — the expressions that are left are the left quotient of the languages, on
  either side of the graph, and an extended expression contains the concatenations.
-/

namespace OneChain.BorrowGraph

open List

variable {Lbl : Type*}

/-! ## The code -/

structure Regex (Lbl : Type*) where
  labels : List Lbl
  endsInDotStar : Bool

inductive Extension (Lbl : Type*)
  | epsilon
  | label (lbl : Lbl)
  | dotStar

namespace Regex

def epsilon : Regex Lbl := ⟨[], false⟩

def label (lbl : Lbl) : Regex Lbl := ⟨[lbl], false⟩

def dotStar : Regex Lbl := ⟨[], true⟩

def isEpsilon (r : Regex Lbl) : Bool := r.labels.isEmpty && !r.endsInDotStar

def extend (r : Regex Lbl) (ext : Extension Lbl) : Regex Lbl :=
  if r.endsInDotStar then r
  else
    match ext with
    | .epsilon => r
    | .label lbl => { r with labels := r.labels ++ [lbl] }
    | .dotStar => { r with endsInDotStar := true }

end Regex

/-- How far an expression has been walked. -/
inductive Walk (Lbl : Type*)
  | emptySet
  | epsilon
  | regex (r : Regex Lbl) (idx : ℕ)

inductive WalkPeek (Lbl : Type*)
  | emptySet
  | epsilon
  | label (lbl : Lbl)
  | dotStar

namespace Walk

def peek : Walk Lbl → WalkPeek Lbl
  | .emptySet => .emptySet
  | .epsilon => .epsilon
  | .regex r idx =>
    match r.labels[idx]? with
    | some lbl => .label lbl
    | none => if r.endsInDotStar then .dotStar else .epsilon

def next : Walk Lbl → Walk Lbl
  | .emptySet => .emptySet
  | .epsilon => .emptySet
  | .regex r idx =>
    let idx := if idx < r.labels.length then idx + 1 else idx
    if r.labels.length ≤ idx ∧ r.endsInDotStar = false then .epsilon else .regex r idx

def remaining : Walk Lbl → Option (Regex Lbl)
  | .emptySet => none
  | .epsilon => some .epsilon
  | .regex r idx => some { r with labels := r.labels.drop idx }

/-- The loop that collects what remains after every step; `none` if the fuel runs out. -/
def suffixes : ℕ → Walk Lbl → Option (List (Regex Lbl))
  | 0, _ => none
  | fuel + 1, walk =>
    match walk.remaining with
    | none => some []
    | some rem => (suffixes fuel walk.next).map (rem :: ·)

end Walk

def Regex.walk (r : Regex Lbl) : Walk Lbl := if r.isEpsilon then .epsilon else .regex r 0

section RemovePrefix

variable [DecidableEq Lbl]

def Regex.removePrefix (r : Regex Lbl) : Extension Lbl → Option (List (Regex Lbl))
  | .epsilon => some r.walk.remaining.toList
  | .label lp =>
    match r.walk.peek with
    | .emptySet | .epsilon => some []
    | .label l => some (if lp = l then r.walk.next.remaining.toList else [])
    | .dotStar => some [.dotStar]
  | .dotStar =>
    if r.endsInDotStar then some [.dotStar] else r.walk.suffixes (r.labels.length + 2)

def Extension.intoRegex : Extension Lbl → Regex Lbl
  | .epsilon => .epsilon
  | .label lbl => .label lbl
  | .dotStar => .dotStar

def Extension.removePrefix (x : Extension Lbl) (p : Regex Lbl) : List (Regex Lbl) :=
  match p.walk.peek with
  | .emptySet => []
  | .epsilon => [x.intoRegex]
  | .label lp =>
    match x with
    | .epsilon => []
    | .label l =>
      if lp = l then
        match p.walk.next.peek with
        | .emptySet | .label _ => []
        | .epsilon | .dotStar => [.epsilon]
      else []
    | .dotStar => [.dotStar]
  | .dotStar =>
    match x with
    | .dotStar => [.dotStar]
    | .epsilon => [.epsilon]
    | .label _ => [x.intoRegex, .epsilon]

end RemovePrefix

/-! ## Languages -/

/-- The words of an expression: its labels, and after them anything if it ends in dot star. -/
def Regex.language (r : Regex Lbl) : Set (List Lbl) :=
  {w | ∃ v, w = r.labels ++ v ∧ (r.endsInDotStar = false → v = [])}

def Extension.language (x : Extension Lbl) : Set (List Lbl) := x.intoRegex.language

/-- What is left of the words of `L` when a word of `P` is taken off the front. -/
def leftQuotient (L P : Set (List Lbl)) : Set (List Lbl) := {q | ∃ u ∈ P, u ++ q ∈ L}

/-- The words of some of the expressions. -/
def union (rs : List (Regex Lbl)) : Set (List Lbl) := {w | ∃ r ∈ rs, w ∈ r.language}

section Language

variable {ls w q : List Lbl} {l : Lbl} {r : Regex Lbl} {rs : List (Regex Lbl)}

@[simp] theorem mem_exact : w ∈ (⟨ls, false⟩ : Regex Lbl).language ↔ w = ls := by
  simp [Regex.language]

@[simp] theorem mem_dotted : w ∈ (⟨ls, true⟩ : Regex Lbl).language ↔ ∃ v, ls ++ v = w := by
  simp [Regex.language, eq_comm]

@[simp] theorem mem_union_nil : w ∉ union ([] : List (Regex Lbl)) := by
  simp [union]

@[simp] theorem mem_union_cons : w ∈ union (r :: rs) ↔ w ∈ r.language ∨ w ∈ union rs := by
  simp [union]

@[simp] theorem mem_union_ite {c : Prop} [Decidable c] :
    w ∈ union (if c then rs else []) ↔ c ∧ w ∈ union rs := by
  split <;> simp [*]

@[simp] theorem mem_leftQuotient {L P : Set (List Lbl)} :
    q ∈ leftQuotient L P ↔ ∃ u ∈ P, u ++ q ∈ L := Iff.rfl

theorem remaining_walk : r.walk.remaining = some r := by
  obtain ⟨_ | ⟨a, ls⟩, _ | _⟩ := r <;> rfl

/-- A step takes the first label off. -/
theorem remaining_next (dot : Bool) :
    (Regex.walk ⟨l :: ls, dot⟩).next.remaining = some ⟨ls, dot⟩ := by
  cases ls <;> cases dot <;> rfl

/-- From any label on, the loop collects what is left before each label, and at the end nothing. -/
theorem suffixes_regex (pre : List Lbl) (h : ls ≠ []) :
    (Walk.regex ⟨pre ++ ls, false⟩ pre.length).suffixes (ls.length + 2) =
      some (ls.tails.map (⟨·, false⟩)) := by
  induction ls generalizing pre with
  | nil => exact absurd rfl h
  | cons a ls ih =>
    have hrem : (Walk.regex ⟨pre ++ a :: ls, false⟩ pre.length).remaining =
        some ⟨a :: ls, false⟩ := by simp [Walk.remaining]
    rw [length_cons, Walk.suffixes, hrem]
    by_cases hls : ls = []
    · subst hls
      simp [Walk.next, Walk.suffixes, Walk.remaining, Regex.epsilon]
    · have hnext : (Walk.regex ⟨pre ++ a :: ls, false⟩ pre.length).next =
          .regex ⟨(pre ++ [a]) ++ ls, false⟩ (pre ++ [a]).length := by
        simp [Walk.next, hls]
      simp only [hnext, ih (pre ++ [a]) hls, Option.map_some, tails, map_cons]

theorem suffixes_walk :
    (Regex.walk ⟨ls, false⟩).suffixes (ls.length + 2) = some (ls.tails.map (⟨·, false⟩)) := by
  cases ls with
  | nil => rfl
  | cons a ls => exact suffixes_regex [] (cons_ne_nil a ls)

end Language

section Exact

variable [DecidableEq Lbl]

theorem Regex.removePrefix_eq (r : Regex Lbl) (x : Extension Lbl) :
    ∃ rs, r.removePrefix x = some rs ∧ union rs = leftQuotient r.language x.language := by
  obtain ⟨ls, dot⟩ := r
  cases x with
  | epsilon =>
    refine ⟨[⟨ls, dot⟩], by rw [removePrefix, remaining_walk]; rfl, ?_⟩
    ext q
    simp [Extension.language, Extension.intoRegex, epsilon]
  | label lp =>
    cases ls with
    | nil =>
      cases dot <;> refine ⟨_, rfl, ?_⟩ <;> ext q <;>
        simp [Extension.language, Extension.intoRegex, label, dotStar]
    | cons l ls =>
      have hpeek : (Regex.walk ⟨l :: ls, dot⟩).peek = .label l := rfl
      simp only [removePrefix, remaining_next]
      refine ⟨_, rfl, ?_⟩
      ext q
      cases dot <;> simp [Extension.language, Extension.intoRegex, label, eq_comm]
  | dotStar =>
    cases dot with
    | true =>
      refine ⟨[.dotStar], rfl, ?_⟩
      ext q
      simp only [mem_union_cons]
      exact ⟨fun _ => ⟨ls, ⟨ls, by simp [Extension.intoRegex, dotStar]⟩, by simp⟩,
        fun _ => .inl (by simp [dotStar])⟩
    | false =>
      refine ⟨_, suffixes_walk, ?_⟩
      ext q
      simp [union, Extension.language, Extension.intoRegex, dotStar, List.IsSuffix]

theorem Extension.removePrefix_eq (x : Extension Lbl) (p : Regex Lbl) :
    union (x.removePrefix p) = leftQuotient x.language p.language := by
  ext q
  -- an extension has one label at most, so two labels of the other expression decide
  obtain ⟨_ | ⟨a, _ | ⟨b, ls⟩⟩, _ | _⟩ := p <;> cases x <;>
    simp [removePrefix, Regex.walk, Regex.isEpsilon, Walk.peek, Walk.next, language, intoRegex,
      Regex.epsilon, Regex.label, Regex.dotStar, append_eq_singleton_iff, exists_or]

/-- **The left quotient is exact.** -/
theorem removePrefix_exact (r p : Regex Lbl) (x : Extension Lbl) :
    (∃ rs, r.removePrefix x = some rs ∧ union rs = leftQuotient r.language x.language) ∧
      union (x.removePrefix p) = leftQuotient x.language p.language ∧
      ∀ u ∈ r.language, ∀ v ∈ x.language, u ++ v ∈ (r.extend x).language := by
  refine ⟨r.removePrefix_eq x, x.removePrefix_eq p, fun u hu v hv => ?_⟩
  obtain ⟨ls, dot⟩ := r
  cases dot with
  | true =>
    obtain ⟨u', rfl⟩ := mem_dotted.1 hu
    simp [Regex.extend]
  | false =>
    rw [mem_exact] at hu
    subst hu
    cases x with
    | epsilon =>
      simpa [Regex.extend, Extension.language, Extension.intoRegex, Regex.epsilon] using hv
    | label l => simpa [Regex.extend, Extension.language, Extension.intoRegex, Regex.label] using hv
    | dotStar => simp [Regex.extend]

end Exact

end OneChain.BorrowGraph
