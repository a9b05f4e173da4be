import Mathlib.Data.List.Forall2
import Mathlib.Data.Nat.Basic

/-!
# Computations that may fail

`Except ε` is the monad of computations that return a value or stop with a reason. This file
collects the rules by which a computation is taken apart: what it means for a sequence to
succeed, for a check to pass, for a loop over a list to reach its end.
-/

namespace OneChain.Lib

open List

universe u v

variable {ε : Type u} {α β σ : Type v}

/-! ## Sequencing -/

variable {x : Except ε α} {f : α → Except ε β} {e : ε} {c : Prop} {l : List α} {s' : σ}
  {g : σ → α → σ} {R : α → α → Prop}

/-- A sequence succeeds when both parts do. -/
theorem bind_ok {b : β} : (x >>= f) = .ok b ↔ ∃ a, x = .ok a ∧ f a = .ok b := by
  cases x with
  | error e => simp [bind, Except.bind]
  | ok a => simp [bind, Except.bind]

/-- A sequence fails where its first failing part does. -/
theorem bind_error : (x >>= f) = .error e ↔ x = .error e ∨ ∃ a, x = .ok a ∧ f a = .error e := by
  cases x with
  | error e' => simp [bind, Except.bind]
  | ok a => simp [bind, Except.bind]

@[simp] theorem ok_bind (a : α) (f : α → Except ε β) : (Except.ok a >>= f) = f a := rfl

@[simp] theorem error_bind (e : ε) (f : α → Except ε β) :
    ((Except.error e : Except ε α) >>= f) = .error e := rfl

@[simp] theorem pure_ok (a : α) : (pure a : Except ε α) = .ok a := rfl

theorem return_ok {a b : α} : (pure a : Except ε α) = .ok b ↔ a = b := by
  rw [pure_ok, Except.ok.injEq]

/-! ## Checks -/

/-- Continue only if `c` holds. -/
def check (c : Prop) [Decidable c] (e : ε) : Except ε Unit :=
  if c then .ok () else .error e

@[simp] theorem check_ok [Decidable c] {u : Unit} : check c e = .ok u ↔ c := by
  unfold check
  split <;> simp_all

@[simp] theorem check_error [Decidable c] {e' : ε} : check c e = .error e' ↔ ¬ c ∧ e = e' := by
  unfold check
  split <;> simp_all

theorem check_of [Decidable c] (h : c) : check c e = .ok () := check_ok.2 h

theorem toOption_eq_some {a : α} : x.toOption = some a ↔ x = .ok a := by
  cases x <;> simp [Except.toOption]

/-- A call that returns something with a property. -/
instance decidableExistsOk {p : α → Prop} [DecidablePred p] : Decidable (∃ a, x = .ok a ∧ p a) :=
  decidable_of_iff (x.toOption.any (p ·) = true) (by cases x <;> simp [Except.toOption])

/-- Decides which error a call fails with; its results need not be comparable. -/
def failsWith [DecidableEq ε] : Except ε α → ε → Bool
  | .ok _, _ => false
  | .error e, e' => e = e'

theorem failsWith_iff [DecidableEq ε] : failsWith x e = true ↔ x = .error e := by
  cases x <;> simp [failsWith]

instance decidableEqError [DecidableEq ε] : Decidable (x = .error e) :=
  decidable_of_iff _ failsWith_iff

/-- Read a value that has to be there. -/
def require (o : Option α) (e : ε) : Except ε α :=
  match o with
  | some a => .ok a
  | none => .error e

@[simp] theorem require_ok {o : Option α} {a : α} : require o e = .ok a ↔ o = some a := by
  cases o <;> simp [require]

@[simp] theorem require_error {o : Option α} {e' : ε} :
    require o e = .error e' ↔ o = none ∧ e = e' := by
  cases o <;> simp [require]

theorem mapError_ok {ε' : Type*} {f : ε → ε'} {a : α} : x.mapError f = .ok a ↔ x = .ok a := by
  cases x <;> simp [Except.mapError]

theorem mapError_error {ε' : Type*} {f : ε → ε'} {e : ε'} :
    x.mapError f = .error e ↔ ∃ e', x = .error e' ∧ f e' = e := by
  cases x <;> simp [Except.mapError]

/-- The rules by which a computation that returned is taken apart, as one set for `simp`. -/
theorem ok_iff : (∀ {ε α β : Type} {x : Except ε α} {f : α → Except ε β} {b : β},
      (x >>= f) = .ok b ↔ ∃ a, x = .ok a ∧ f a = .ok b) ∧
    (∀ {ε α : Type} {a b : α}, (pure a : Except ε α) = .ok b ↔ a = b) ∧
    (∀ {ε : Type} {c : Prop} [Decidable c] {e : ε} {u : Unit}, check c e = .ok u ↔ c) ∧
    (∀ {ε α : Type} {o : Option α} {e : ε} {a : α}, require o e = .ok a ↔ o = some a) ∧
    (∀ {α β : Type} {a a' : α} {b b' : β}, (a, b) = (a', b') ↔ a = a' ∧ b = b') ∧
    (∀ {α β : Type} {p : α × β → Prop}, (∃ x, p x) ↔ ∃ a b, p (a, b)) ∧
    ∀ {p : Prop}, (∃ _ : Unit, p) ↔ p :=
  ⟨bind_ok, return_ok, check_ok, require_ok, Prod.ext_iff, Prod.exists, exists_const Unit⟩

/-! ## Loops -/

/-- What every round of a loop keeps, the whole loop keeps. -/
theorem foldlM_induction {f : σ → α → Except ε σ} {P : σ → Prop}
    (hst : ∀ s s', ∀ a ∈ l, P s → f s a = .ok s' → P s') {s : σ} (hs : P s)
    (h : l.foldlM f s = .ok s') : P s' := by
  induction l generalizing s with
  | nil =>
    simp only [foldlM_nil, return_ok] at h
    exact h ▸ hs
  | cons a l ih =>
    rw [foldlM_cons, bind_ok] at h
    obtain ⟨t, ht, hl⟩ := h
    have hP : P t := hst s t a mem_cons_self hs ht
    exact ih (fun s s' b hb => hst s s' b (mem_cons_of_mem _ hb)) hP hl

theorem forM_ok {f : α → Except ε PUnit} (h : ∀ a ∈ l, f a = .ok ⟨⟩) : l.forM f = .ok ⟨⟩ := by
  induction l with
  | nil => rfl
  | cons a l ih =>
    rw [forM_eq_forM, forM_cons, h a mem_cons_self]
    exact ih fun b hb => h b (mem_cons_of_mem _ hb)

/-- A loop that reaches its end has passed every check on the way. -/
theorem foldlM_forall {f : σ → α → Except ε σ} {Q : α → Prop}
    (hQ : ∀ s s' a, f s a = .ok s' → Q a) {s : σ} (h : l.foldlM f s = .ok s') : ∀ a ∈ l, Q a := by
  induction l generalizing s with
  | nil => simp
  | cons a l ih =>
    rw [foldlM_cons, bind_ok] at h
    obtain ⟨t, ht, hl⟩ := h
    rw [forall_mem_cons]
    exact ⟨hQ s t a ht, ih hl⟩

/-- A map over a list succeeds exactly when each element does, and returns their results. -/
theorem mapM_eq_ok {bs : List β} : l.mapM f = .ok bs ↔ Forall₂ (fun a b => f a = .ok b) l bs := by
  induction l generalizing bs with
  | nil => simp [eq_comm]
  | cons a l ih =>
    rw [mapM_cons, bind_ok]
    constructor
    · rintro ⟨b, hb, hr⟩
      obtain ⟨bs', hbs', hout⟩ := bind_ok.1 hr
      simp only [return_ok] at hout
      subst hout
      exact .cons hb (ih.1 hbs')
    · intro h
      cases h with
      | cons hb hbs =>
        refine ⟨_, hb, ?_⟩
        rw [bind_ok]
        exact ⟨_, ih.2 hbs, rfl⟩

theorem mapM_forall {Q : α → Prop} (hQ : ∀ a b, f a = .ok b → Q a) {bs : List β}
    (h : l.mapM f = .ok bs) : ∀ a ∈ l, Q a := by
  have h₂ : Forall₂ (fun a b => Q a ∧ f a = .ok b) l bs :=
    (mapM_eq_ok.1 h).imp fun a b hab => ⟨hQ a b hab, hab⟩
  exact ((forall₂_and_left _ _).1 h₂).1

theorem mapM_ok {g : α → β} (h : ∀ a ∈ l, f a = .ok (g a)) : l.mapM f = .ok (l.map g) := by
  refine mapM_eq_ok.2 (forall₂_map_right_iff.2 (forall₂_same.2 h))

theorem mapM_require {f : α → Option β} {e : α → ε} (h : ∀ a ∈ l, (f a).isSome) :
    l.mapM (fun a => require (f a) (e a)) = .ok (l.filterMap f) := by
  induction l with
  | nil => rfl
  | cons a l ih =>
    obtain ⟨b, hb⟩ := Option.isSome_iff_exists.1 (h a mem_cons_self)
    rw [mapM_cons, ih fun c hc => h c (mem_cons_of_mem _ hc),
      filterMap_cons_some hb, require_ok.2 hb]
    rfl

/-- Keep the elements that pass a test that may fail. -/
def filterE {α : Type} (p : α → Except ε Bool) : List α → Except ε (List α)
  | [] => .ok []
  | a :: l => do
    let keep ← p a
    let rest ← filterE p l
    pure (if keep then a :: rest else rest)

theorem filterE_ok {α : Type} {p : α → Except ε Bool} {q : α → Bool} {l : List α}
    (h : ∀ a ∈ l, p a = .ok (q a)) : filterE p l = .ok (l.filter q) := by
  induction l with
  | nil => rfl
  | cons a l ih =>
    rw [filterE, h a mem_cons_self, ok_bind,
      ih fun b hb => h b (mem_cons_of_mem _ hb), ok_bind, filter_cons, pure_ok]

/-- A loop whose rounds, if they succeed, do what `g` does. -/
theorem eq_foldl_of_foldlM {f : σ → α → Except ε σ} (hs : ∀ s a s', f s a = .ok s' → s' = g s a)
    {s : σ} (h : l.foldlM f s = .ok s') : s' = l.foldl g s := by
  induction l generalizing s with
  | nil => exact (Except.ok.inj h).symm
  | cons a l ih =>
    rw [foldlM_cons, bind_ok] at h
    obtain ⟨t, ht, hl⟩ := h
    rw [foldl_cons, ← hs s a t ht]
    exact ih hl

theorem foldlM_ok {f : σ → α → Except ε σ} (h : ∀ s, ∀ a ∈ l, f s a = .ok (g s a)) (s : σ) :
    l.foldlM f s = .ok (l.foldl g s) := by
  induction l generalizing s with
  | nil => rfl
  | cons a l ih =>
    rw [foldlM_cons, h s a mem_cons_self]
    exact ih (fun s b hb => h s b (mem_cons_of_mem _ hb)) (g s a)

/-! ## Results and errors -/

/-- The computation returns a value with the property `Q`, or stops with a reason that has `E`. -/
def Ends (x : Except ε α) (Q : α → Prop) (E : ε → Prop) : Prop :=
  match x with
  | .ok a => Q a
  | .error e => E e

section Ends

variable {Q Q' : α → Prop} {E E' : ε → Prop}

section

variable (h : Ends x Q E)
include h

theorem Ends.mono (hQ : ∀ a, Q a → Q' a) : Ends x Q' E := by
  cases x with
  | ok a => exact hQ a h
  | error e => exact h

theorem Ends.imp_error (hE : ∀ e, E e → E' e) : Ends x Q E' := by
  cases x with
  | ok a => exact h
  | error e => exact hE e h

theorem Ends.bind {R : β → Prop} (hf : ∀ a, Q a → Ends (f a) R E) : Ends (x >>= f) R E := by
  cases x with
  | ok a => exact hf a h
  | error e => exact h

theorem Ends.of_ok {a : α} (hx : x = .ok a) : Q a := by
  rw [hx] at h
  exact h

theorem Ends.of_error {e : ε} (hx : x = .error e) : E e := by
  rw [hx] at h
  exact h

theorem Ends.exists_ok (hE : ∀ e, ¬ E e) : ∃ a, x = .ok a := by
  cases x with
  | ok a => exact ⟨a, rfl⟩
  | error e => exact absurd h (hE e)

end

/-- Two computations that return the one value with `Q` under the same condition. -/
theorem Ends.toOption_eq {y : Except ε α} {P : Prop} (hx : Ends x (fun a => Q a ∧ P) fun _ => ¬ P)
    (hy : Ends y (fun a => Q a ∧ P) fun _ => ¬ P) (hu : ∀ a b, Q a → Q b → a = b) :
    x.toOption = y.toOption := by
  cases x with
  | ok a =>
    cases y with
    | ok b => exact congrArg some (hu a b hx.1 hy.1)
    | error e => exact absurd hx.2 hy
  | error e =>
    cases y with
    | ok b => exact absurd hy.2 hx
    | error e' => rfl

theorem Ends.foldlM {f : σ → α → Except ε σ} {P : σ → Prop} {l : List α} {E : ε → Prop}
    (hst : ∀ s, ∀ a ∈ l, P s → Ends (f s a) P E) {s : σ} (hs : P s) : Ends (l.foldlM f s) P E := by
  induction l generalizing s with
  | nil => exact hs
  | cons a l ih =>
    exact (hst s a mem_cons_self hs).bind fun t ht =>
      ih (fun s b hb => hst s b (mem_cons_of_mem _ hb)) ht

end Ends

theorem zip_concat_of_drop {l rest : List α} {l' : List β} {a : α} {b : β}
    (h : l.drop l'.length = a :: rest) : l.zip (l' ++ [b]) = l.zip l' ++ [(a, b)] := by
  induction l' generalizing l with
  | nil =>
    rw [length_nil, drop_zero] at h
    rw [h]
    simp
  | cons b' l' ih =>
    cases l with
    | nil => simp at h
    | cons a' l =>
      simp [ih h]

theorem map_fst_zip_append_drop (l : List α) (l' : List β) :
    (l.zip l').map Prod.fst ++ l.drop l'.length = l := by
  induction l' generalizing l with
  | nil => simp
  | cons b l' ih =>
    cases l with
    | nil => rfl
    | cons a l => simp [ih]

theorem filter_take_append {p : α → Bool} {l' : List α} (k : ℕ) (h : ∀ a ∈ l, ¬ p a = true)
    (h' : ∀ a ∈ l', p a = true) : ((l ++ l').take k).filter p = l'.take (k - l.length) := by
  rw [take_append, filter_append, filter_eq_nil_iff.2 fun a ha => h a (mem_of_mem_take ha),
    filter_eq_self.2 fun a ha => h' a (mem_of_mem_take ha), nil_append]

theorem split_append {l' pre post : List α} {a : α} (h : l ++ l' = pre ++ a :: post) :
    (∃ post', l = pre ++ a :: post') ∨ ∃ pre', pre = l ++ pre' ∧ l' = pre' ++ a :: post := by
  rcases append_eq_append_iff.1 h with ⟨mid, rfl, hmid⟩ | ⟨mid, rfl, hmid⟩
  · exact .inr ⟨mid, rfl, hmid⟩
  · cases mid with
    | nil => exact .inr ⟨[], by simp, hmid.symm⟩
    | cons x mid =>
      rw [cons_append, List.cons.injEq] at hmid
      exact .inl ⟨mid, by rw [hmid.1]⟩

/-- Two passes over a list, element by element, are one. -/
theorem forall₂_trans (hR : ∀ a b c, R a b → R b c → R a c) {l₁ l₂ l₃ : List α}
    (h₁ : Forall₂ R l₁ l₂) (h₂ : Forall₂ R l₂ l₃) : Forall₂ R l₁ l₃ := by
  induction h₁ generalizing l₃ with
  | nil => exact h₂
  | cons hab _ ih =>
    cases h₂ with
    | cons hbc hr => exact .cons (hR _ _ _ hab hbc) (ih hr)

/-- What a pass over a list establishes of each element from what held of it before. -/
theorem forall₂_forall {R : α → β → Prop} {P : α → Prop} {Q : β → Prop} {l' : List β}
    (h : Forall₂ R l l') (hR : ∀ a b, R a b → P a → Q b) (hP : ∀ a ∈ l, P a) : ∀ b ∈ l', Q b := by
  induction h with
  | nil => simp
  | cons hab _ ih =>
    rw [forall_mem_cons] at hP ⊢
    exact ⟨hR _ _ hab hP.1, ih hP.2⟩

/-- What a pass over a list leaves alone. -/
theorem forall₂_map_eq {f : α → β} {l' : List α} (h : Forall₂ R l l')
    (hR : ∀ a b, R a b → f b = f a) : l'.map f = l.map f := by
  induction h with
  | nil => rfl
  | cons hab _ ih => rw [map_cons, map_cons, hR _ _ hab, ih]

end OneChain.Lib
