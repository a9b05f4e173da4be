import OneChain.Authority.Transactions

/-!
# The ownership check after an execution

`TemporaryStore::check_ownership_invariants` follows every object that a transaction has modified to
what holds it: the container that wraps it, or else its owner before the transaction. It does so
until it finds an input that the transaction may mutate. An object counts as authenticated as soon
as its holder waits to be checked, so objects that hold each other in a circle authenticate each
other, and so do the objects of a system package in an epoch change.

* `authenticate_closed` — what the loop has authenticated is held by something authenticated.
* `modified_objects_rooted` — a modified object is held by an input exactly if its holders run into
  neither.
-/

namespace OneChain.Execution

open Lib Authority List OrdMap

/-- Addresses and object ids are the same numbers. The versions that come with an owner are not
looked at here. -/
inductive Owner
  | addressOwner (address : ObjectID)
  | objectOwner (address : ObjectID)
  | shared
  | immutable
  | consensusAddressOwner
  deriving DecidableEq

/-- The parts of the store that the check reads; of objects it reads the owner. -/
structure TemporaryStore where
  (store inputObjects : OrdMap ObjectID Owner)
  modifiedObjects : OrdSet ObjectID
  wrappedObjectContainers : OrdMap ObjectID ObjectID

inductive OwnershipPanic
  | inputNotOwnedBySender
  | inputOwnedByObject
  | failedToLoad (id : ObjectID)
  | unauthenticatedRoot (id : ObjectID) (owner : Owner)
  | immutableWritten
  | notSystemPackage
  deriving DecidableEq

def isSystemPackage (id : ObjectID) : Bool := id ∈ [0x1, 0x2, 0x3, 0xb, 0xdee9]

namespace TemporaryStore

/-- A gas coin or an immutable input is not added: no other object is held by it. -/
def authenticateInput (sender : ObjectID) (gasObjs : List ObjectID) (input : ObjectID × Owner) :
    Except OwnershipPanic (Option ObjectID) :=
  if input.1 ∈ gasObjs then pure none
  else
    match input.2 with
    | .addressOwner a => do
      check (sender = a) .inputNotOwnedBySender
      pure (some input.1)
    | .shared | .consensusAddressOwner => pure (some input.1)
    | .immutable => pure none
    | .objectOwner _ => .error .inputOwnedByObject

/-- The inputs that cannot be mutated are taken out again. -/
def authenticatedForMutation (mutableInputs : List ObjectID) (inputs : List (Option ObjectID)) :
    Finset ObjectID :=
  ((inputs.filterMap id).filter (· ∈ mutableInputs)).toFinset

variable (s : TemporaryStore)

/-- What holds the object, and nothing for a system package that an epoch change upgrades. -/
def parent (isEpochChange : Bool) (id : ObjectID) : Except OwnershipPanic (Option ObjectID) :=
  match s.wrappedObjectContainers.get? id with
  | some container => pure (some container)
  | none => do
    let owner ← require (s.store.get? id) (.failedToLoad id)
    match owner with
    | .objectOwner parent => pure (some parent)
    | .addressOwner parent => pure (some parent)
    | .shared | .consensusAddressOwner => .error (.unauthenticatedRoot id owner)
    | .immutable => do
      check (isEpochChange = true) .immutableWritten
      check (isSystemPackage id = true) .notSystemPackage
      pure none

/-- The loop over the objects to authenticate, the last one first; `false` if the fuel runs out. -/
def authenticate (s : TemporaryStore) (isEpochChange : Bool) :
    ℕ → Finset ObjectID → List ObjectID → Except OwnershipPanic Bool
  | 0, _, _ => .ok false
  | _ + 1, _, [] => .ok true
  | fuel + 1, authenticated, id :: work =>
    if id ∈ authenticated then s.authenticate isEpochChange fuel authenticated work
    else do
      match ← s.parent isEpochChange id with
      | none => s.authenticate isEpochChange fuel authenticated work
      | some parent => s.authenticate isEpochChange fuel (insert id authenticated) (parent :: work)

/-- The objects that the loop can mark. -/
def known : Finset ObjectID := s.store.keys.toFinset ∪ s.wrappedObjectContainers.keys.toFinset

def objectsToAuthenticate (gasObjs : List ObjectID) : List ObjectID :=
  s.modifiedObjects.keys.filter (· ∉ gasObjs)

def fuel (gasObjs : List ObjectID) : ℕ :=
  (s.objectsToAuthenticate gasObjs).length + s.known.card + 1

def checkOwnershipInvariants (sender : ObjectID) (gasObjs : List ObjectID)
    (mutableInputs : List ObjectID) (isEpochChange : Bool) : Except OwnershipPanic Bool := do
  let inputs ← s.inputObjects.entries.mapM (authenticateInput sender gasObjs)
  s.authenticate isEpochChange (s.fuel gasObjs) (authenticatedForMutation mutableInputs inputs)
    (s.objectsToAuthenticate gasObjs).reverse

/-! ## Links -/

/-- The container, or else the object or address that the object is owned by. -/
def link (id : ObjectID) : Option ObjectID :=
  match s.wrappedObjectContainers.get? id, s.store.get? id with
  | some container, _ => some container
  | none, some (.objectOwner parent) => some parent
  | none, some (.addressOwner parent) => some parent
  | none, _ => none

/-- A mutable input, not a gas coin, of the sender, shared or sequenced by consensus. -/
def IsRoot (sender : ObjectID) (gasObjs mutableInputs : List ObjectID) (id : ObjectID) : Prop :=
  id ∉ gasObjs ∧ id ∈ mutableInputs ∧ ∃ owner, s.inputObjects.get? id = some owner ∧
    owner ∈ [.addressOwner sender, .shared, .consensusAddressOwner]

/-- A system package of an epoch change: nothing holds it. -/
def Upgraded (isEpochChange : Bool) (id : ObjectID) : Prop :=
  isEpochChange = true ∧ isSystemPackage id = true ∧ s.link id = none

variable {s} {isEpochChange : Bool} {fuel : ℕ} {authenticated : Finset ObjectID}
  {sender id : ObjectID} {work gasObjs mutableInputs : List ObjectID}

theorem parent_ok {out : Option ObjectID} (h : s.parent isEpochChange id = .ok out) :
    s.link id = out ∧ (out = none → s.Upgraded isEpochChange id) := by
  unfold parent at h
  unfold Upgraded link
  cases hw : s.wrappedObjectContainers.get? id with
  | some container =>
    rw [hw] at h
    cases h
    exact ⟨rfl, nofun⟩
  | none =>
    simp only [hw, ok_iff] at h
    obtain ⟨owner, ho, h⟩ := h
    rw [ho]
    cases owner with
    | addressOwner a => cases h; exact ⟨rfl, nofun⟩
    | objectOwner a => cases h; exact ⟨rfl, nofun⟩
    | immutable =>
      simp only [ok_iff] at h
      obtain ⟨he, hp, rfl⟩ := h
      exact ⟨rfl, fun _ => ⟨he, hp, rfl⟩⟩
    | shared => cases h
    | consensusAddressOwner => cases h

theorem authenticateInput_ok {input : ObjectID × Owner}
    (h : authenticateInput sender gasObjs input = .ok (some id)) :
    id = input.1 ∧ id ∉ gasObjs ∧
      input.2 ∈ [.addressOwner sender, .shared, .consensusAddressOwner] := by
  unfold authenticateInput at h
  split at h
  next => cases h
  next hgas =>
    split at h
    next a ho =>
      simp only [ok_iff, Option.some.injEq] at h
      obtain ⟨rfl, rfl⟩ := h
      exact ⟨rfl, hgas, by simp [ho]⟩
    next ho =>
      cases h
      exact ⟨rfl, hgas, by simp [ho]⟩
    next ho =>
      cases h
      exact ⟨rfl, hgas, by simp [ho]⟩
    next => cases h
    next => cases h

/-! ## The loop -/

/-- **What is authenticated is held by something authenticated,** or by a system package. -/
theorem authenticate_closed (h : s.authenticate isEpochChange fuel authenticated work = .ok true) :
    ∃ final : Finset ObjectID, authenticated ⊆ final ∧
      (∀ id ∈ work, id ∈ final ∨ s.Upgraded isEpochChange id) ∧
      ∀ id ∈ final, id ∈ authenticated ∨ ∃ ho, s.link id = some ho ∧
        (ho ∈ final ∨ s.Upgraded isEpochChange ho) := by
  induction fuel generalizing authenticated work with
  | zero => cases h
  | succ fuel ih =>
    cases work with
    | nil => exact ⟨authenticated, subset_rfl, nofun, fun _ => .inl⟩
    | cons id work =>
      rw [authenticate] at h
      by_cases hid : id ∈ authenticated
      · rw [if_pos hid] at h
        obtain ⟨final, hsub, hw, hc⟩ := ih h
        exact ⟨final, hsub, forall_mem_cons.2 ⟨.inl (hsub hid), hw⟩, hc⟩
      · rw [if_neg hid, bind_ok] at h
        obtain ⟨out, hpar, h⟩ := h
        obtain ⟨hl, hp⟩ := parent_ok hpar
        cases out with
        | none =>
          obtain ⟨final, hsub, hw, hc⟩ := ih h
          exact ⟨final, hsub, forall_mem_cons.2 ⟨.inr (hp rfl), hw⟩, hc⟩
        | some ho =>
          obtain ⟨final, hsub, hw, hc⟩ := ih h
          rw [Finset.insert_subset_iff] at hsub
          rw [forall_mem_cons] at hw
          refine ⟨final, hsub.2, forall_mem_cons.2 ⟨.inl hsub.1, hw.2⟩, fun a ha => ?_⟩
          rcases hc a ha with hmem | hh
          · rcases Finset.mem_insert.1 hmem with rfl | hmem
            · exact .inr ⟨ho, hl, hw.1⟩
            · exact .inl hmem
          · exact .inr hh

theorem mem_known {ho : ObjectID} (h : s.link id = some ho) : id ∈ s.known := by
  unfold link at h
  simp only [known, Finset.mem_union, mem_toFinset, OrdMap.mem_keys, mem_def]
  cases hw : s.wrappedObjectContainers.get? id with
  | some container => exact .inr rfl
  | none =>
    cases hs : s.store.get? id with
    | some owner => exact .inl rfl
    | none => simp [hw, hs] at h

/-- Each round takes an object off the list or marks one. -/
theorem authenticate_ne_false (hf : work.length + (s.known \ authenticated).card < fuel) :
    s.authenticate isEpochChange fuel authenticated work ≠ .ok false := by
  induction fuel generalizing authenticated work with
  | zero => omega
  | succ fuel ih =>
    cases work with
    | nil => nofun
    | cons id work =>
      rw [length_cons] at hf
      rw [authenticate]
      by_cases hid : id ∈ authenticated
      · rw [if_pos hid]
        exact ih (by omega)
      · rw [if_neg hid, ne_eq, bind_ok]
        rintro ⟨out, hpar, h⟩
        cases out with
        | none => exact ih (by omega) h
        | some ho =>
          refine ih ?_ h
          have hmem : id ∈ s.known \ authenticated :=
            Finset.mem_sdiff.2 ⟨mem_known (parent_ok hpar).1, hid⟩
          have hc := Finset.card_erase_lt_of_mem hmem
          rw [← Finset.sdiff_insert] at hc
          rw [length_cons]
          omega

/-! ## What a passed check says -/

section

variable (s) (root : ObjectID → Prop)

/-- The object leads, link by link, to an input that the transaction may mutate. -/
def Rooted (id : ObjectID) : Prop :=
  ∃ input, Relation.ReflTransGen (fun a b => s.link a = some b) id input ∧ root input

/-- The second object holds the first one, which is not such an input. -/
def Climbs (a b : ObjectID) : Prop := s.link a = some b ∧ ¬ root a

/-- The holders of the object, up to the first such input, are no circle and do not end with a
system package. -/
structure Anchored (isEpochChange : Bool) (id : ObjectID) : Prop where
  ends : Acc (fun b a => s.Climbs root a b) id
  notUpgraded : ∀ holder, Relation.ReflTransGen (s.Climbs root) id holder →
    s.Upgraded isEpochChange holder → root holder

end

theorem Rooted.anchored {root : ObjectID → Prop} (h : s.Rooted root id) :
    s.Anchored root isEpochChange id := by
  obtain ⟨input, hpath, hroot⟩ := h
  induction hpath using Relation.ReflTransGen.head_induction_on with
  | refl =>
    refine ⟨⟨input, fun b hb => absurd hroot hb.2⟩, fun holder hh _ => ?_⟩
    rcases hh.cases_head with rfl | ⟨b, hb, _⟩
    · exact hroot
    · exact absurd hroot hb.2
  | @head a c hlink _ ih =>
    -- an object has one holder, so the way up from it goes on with that of its holder
    have hnext : ∀ b, s.Climbs root a b → b = c := fun b hb =>
      Option.some.inj (hb.1.symm.trans hlink)
    refine ⟨⟨a, fun b hb => hnext b hb ▸ ih.ends⟩, fun holder hh hup => ?_⟩
    rcases hh.cases_head with rfl | ⟨b, hb, hh⟩
    · exact nomatch hlink.symm.trans hup.2.2
    · exact ih.notUpgraded holder (hnext b hb ▸ hh) hup

theorem isRoot_of_authenticated {inputs : List (Option ObjectID)}
    (hinp : s.inputObjects.entries.mapM (authenticateInput sender gasObjs) = .ok inputs)
    (hid : id ∈ authenticatedForMutation mutableInputs inputs) :
    s.IsRoot sender gasObjs mutableInputs id := by
  simp only [authenticatedForMutation, mem_toFinset, mem_filter, mem_filterMap,
    decide_eq_true_eq] at hid
  obtain ⟨⟨out, hout, hsome⟩, hmut⟩ := hid
  refine forall₂_forall (Q := fun out => out = some id →
    s.IsRoot sender gasObjs mutableInputs id) (mapM_eq_ok.1 hinp) ?_ (fun _ h => h) out hout hsome
  rintro input _ hstep hinput rfl
  obtain ⟨rfl, hgas, howner⟩ := authenticateInput_ok hstep
  exact ⟨hgas, hmut, input.2, mem_entries.1 hinput, howner⟩

/-- **Which modified objects are held by a mutable input.** The loop ends. If the check passes, the
links of a modified object that is not a gas coin, nor a system package in an epoch change, lead to
such an input exactly if its holders up to there are no circle and do not end with a system
package. -/
theorem modified_objects_rooted :
    s.checkOwnershipInvariants sender gasObjs mutableInputs isEpochChange ≠ .ok false ∧
    (s.checkOwnershipInvariants sender gasObjs mutableInputs isEpochChange = .ok true →
      ∀ id ∈ s.modifiedObjects, id ∉ gasObjs → isEpochChange = true ∧ isSystemPackage id = true ∨
        (s.Rooted (s.IsRoot sender gasObjs mutableInputs) id ↔
          s.Anchored (s.IsRoot sender gasObjs mutableInputs) isEpochChange id)) := by
  refine ⟨fun h => ?_, fun h id hid hgas => ?_⟩ <;> obtain ⟨inputs, hinp, h⟩ := bind_ok.1 h
  · refine authenticate_ne_false ?_ h
    have hknown := Finset.card_le_card (Finset.sdiff_subset (s := s.known)
      (t := authenticatedForMutation mutableInputs inputs))
    rw [length_reverse, TemporaryStore.fuel]
    omega
  obtain ⟨final, -, hwork, hclosed⟩ := authenticate_closed h
  -- what is authenticated is a root, or its holder is authenticated and rooted by induction
  have hrooted : ∀ id, s.Anchored (s.IsRoot sender gasObjs mutableInputs) isEpochChange id →
      id ∈ final → s.Rooted (s.IsRoot sender gasObjs mutableInputs) id := by
    intro id hid
    obtain ⟨hends, hnot⟩ := hid
    induction hends with
    | intro id _ ih =>
      intro hid
      by_cases hroot : s.IsRoot sender gasObjs mutableInputs id
      · exact ⟨id, .refl, hroot⟩
      rcases hclosed id hid with hauth | ⟨holder, hlink, hholder⟩
      · exact absurd (isRoot_of_authenticated hinp hauth) hroot
      · have hclimb : s.Climbs _ id holder := ⟨hlink, hroot⟩
        rcases hholder with hholder | hup
        · obtain ⟨input, hpath, hinput⟩ :=
            ih holder hclimb (fun z hz => hnot z (.head hclimb hz)) hholder
          exact ⟨input, .head hlink hpath, hinput⟩
        · exact ⟨holder, .single hlink, hnot holder (.single hclimb) hup⟩
  have hmem : id ∈ (s.objectsToAuthenticate gasObjs).reverse := by
    simp [objectsToAuthenticate, hid, hgas, OrdMap.mem_keys]
  rcases hwork id hmem with hfinal | hup
  · exact .inr ⟨Rooted.anchored, fun ha => hrooted id ha hfinal⟩
  · exact .inl ⟨hup.1, hup.2.1⟩

/-- Object 9 is wrapped in the shared object 7. -/
theorem modified_objects_rooted_sample :
    let s : TemporaryStore := ⟨empty.insert 7 .shared, empty.insert 7 .shared,
      (empty.insert 7 ()).insert 9 (), empty.insert 9 7⟩
    s.checkOwnershipInvariants 1 [] [7] false = .ok true ∧ s.Rooted (s.IsRoot 1 [] [7]) 9 := by
  intro s
  have hok : s.checkOwnershipInvariants 1 [] [7] false = .ok true := by decide +kernel
  have hnine : s.link 9 = some 7 := by decide +kernel
  have hseven : s.link 7 = none := by decide +kernel
  have hends : Acc (fun b a => s.Climbs (s.IsRoot 1 [] [7]) a b) 9 := by
    refine ⟨9, fun b hb => ?_⟩
    obtain rfl : 7 = b := Option.some.inj (hnine.symm.trans hb.1)
    exact ⟨7, fun c hc => nomatch hseven.symm.trans hc.1⟩
  refine ⟨hok, ?_⟩
  have hnot : ¬ ((false : Bool) = true ∧ isSystemPackage 9 = true) := by decide
  exact ((modified_objects_rooted.2 hok 9 (by decide) (by simp)).resolve_left hnot).2
    ⟨hends, fun _ _ hup => nomatch hup.1⟩

/-- **Objects that hold each other pass the check,** and so does an object of a system package in an
epoch change, although the transaction has no input. -/
theorem modified_objects_unrooted :
    let circle : TemporaryStore := ⟨(empty.insert 7 (.addressOwner 8)).insert 8
      (.addressOwner 7), empty, empty.insert 7 (), empty⟩
    let package : TemporaryStore := ⟨(empty.insert 2 .immutable).insert 8 (.objectOwner 2),
      empty, empty.insert 8 (), empty⟩
    circle.checkOwnershipInvariants 1 [] [] false = .ok true ∧
      ¬ circle.Rooted (circle.IsRoot 1 [] []) 7 ∧
    package.checkOwnershipInvariants 1 [] [] true = .ok true ∧
      ¬ package.Rooted (package.IsRoot 1 [] []) 8 ∧
      isSystemPackage 8 = false := by
  refine ⟨by decide +kernel, ?_, by decide +kernel, ?_, by decide⟩
  · rintro ⟨root, -, -, hmut, -⟩
    cases hmut
  · rintro ⟨root, -, -, hmut, -⟩
    cases hmut

end TemporaryStore

end OneChain.Execution
