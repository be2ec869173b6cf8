import StateSpace.Proofs.Actor.Steps

/-!
# Searching a network by its order

A network is a sorted multiset, in which envelopes can be looked up by comparing them. What is found then is neither below nor
above the envelope asked for, which need not make it equal. With a linear order of messages it does.

* `ActorSystem.actionsAlong`, `ActorSystem.nextFound` : the enabled actions and where they lead, with every search in the
  network made by the order; `ActorSystem.searched` : the model of these;
* `actionsAlong_eq`, `nextFound_eq` : on a sorted network with linearly ordered messages they are those of the system;
* `reachable_searched_iff` : so both models have the same reachable states.
-/

namespace StateSpace.ActorSystem

variable {τ μ : Type} [Ord μ]

/-- The enabled actions, going from each envelope to the next one above it. -/
def actionsAlong (sys : ActorSystem τ μ) (s : SystemState τ μ) : List (NetAction μ) :=
  (Sorted.leaps s.network).flatMap sys.actionsOn

/-- The state after an action, the envelope of which is looked up by the order and taken out where it is found. -/
def nextFound (sys : ActorSystem τ μ) (s : SystemState τ μ) : NetAction μ → Except Fault (Option (SystemState τ μ))
  | .deliver e =>
    if (Sorted.lookup e s.network).isSome then
      match sys.actors[e.dst]?, s.actors[e.dst]? with
      | some actor, some state => do
        match ← actor.advance state e.src e.msg with
        | none => return none
        | some r => return some ⟨s.actors.set e.dst r.state, Network.post (Sorted.takeOut e s.network) e.dst r.outputs⟩
      | _, _ => .ok none
    else .ok none
  | .drop e =>
    if (Sorted.lookup e s.network).isSome then .ok (some ⟨s.actors, Sorted.takeOut e s.network⟩) else .ok none

/-- The system as a model in which every search in the network is made by the order. -/
def searched [ToWord τ] [ToWord μ] (sys : ActorSystem τ μ) : Model (SystemState τ μ) (NetAction μ) where
  initStates := [sys.initial]
  actions s := .ok (sys.actionsAlong s)
  next := sys.nextFound
  properties := sys.properties
  withinBoundary := sys.boundary
  hash := SystemState.hash
  formatState := sys.formatState
  formatAction := sys.formatAction

variable [Std.LawfulEqOrd μ] [DecidableEq μ] {s : SystemState τ μ}

theorem actionsAlong_eq (sys : ActorSystem τ μ) (hs : Sorted.IsSorted s.network) : sys.actionsAlong s = sys.actionsOf s := by
  rw [actionsAlong, hs.leaps_eq, actionsOf]

variable [Std.TransOrd μ]

theorem nextFound_eq (sys : ActorSystem τ μ) (hs : Sorted.IsSorted s.network) (a : NetAction μ) :
    sys.nextFound s a = sys.nextOf s a := by
  have hfind : ∀ e, (Sorted.lookup e s.network).isSome = decide (e ∈ s.network) := by
    intro e
    rw [hs.lookup_eq]
    split <;> simp_all
  cases a with
  | deliver e =>
    rw [nextFound, nextOf_deliver, hfind]
    by_cases he : e ∈ s.network
    · rw [hs.takeOut_eq he, if_pos he, if_pos (decide_eq_true he)]
      rfl
    · rw [if_neg he, if_neg (by simpa using he)]
  | drop e =>
    rw [nextFound, nextOf_drop, hfind]
    by_cases he : e ∈ s.network
    · rw [hs.takeOut_eq he, if_pos he, if_pos (decide_eq_true he)]
      rfl
    · rw [if_neg he, if_neg (by simpa using he)]

variable [ToWord τ] [ToWord μ]

theorem step_searched_iff {sys : ActorSystem τ μ} (hs : Sorted.IsSorted s.network) {a : NetAction μ} {t : SystemState τ μ} :
    sys.searched.Step s a t ↔ sys.model.Step s a t := by
  unfold Model.Step
  show (∃ as, Except.ok (sys.actionsAlong s) = .ok as ∧ a ∈ as) ∧ sys.nextFound s a = .ok (some t) ↔ _
  rw [actionsAlong_eq sys hs, nextFound_eq sys hs]
  exact Iff.rfl

/-- Looking envelopes up by a linear order leads to the same states as looking for equal ones. -/
theorem reachable_searched_iff (sys : ActorSystem τ μ) : sys.searched.Reachable s ↔ sys.model.Reachable s := by
  -- either way the network stays sorted, which the next step rests on
  have hinit : ∀ {s}, s ∈ [sys.initial] → Sorted.IsSorted s.network := by
    intro s hs
    rw [List.mem_singleton.1 hs]
    exact isSorted_initial sys
  constructor
  · intro h
    suffices hboth : sys.model.Reachable s ∧ Sorted.IsSorted s.network from hboth.1
    induction h with
    | init hi => exact ⟨.init hi, hinit hi⟩
    | step _ hb hstep ih =>
      obtain ⟨hreach, hs⟩ := ih
      have hstep' := (step_searched_iff hs).1 hstep
      exact ⟨.step hreach hb hstep', (step_iff.1 hstep').isSorted hs⟩
  · intro h
    suffices hboth : sys.searched.Reachable s ∧ Sorted.IsSorted s.network from hboth.1
    induction h with
    | init hi => exact ⟨.init hi, hinit hi⟩
    | step _ hb hstep ih =>
      obtain ⟨hreach, hs⟩ := ih
      exact ⟨.step hreach hb ((step_searched_iff hs).2 hstep), (step_iff.1 hstep).isSorted hs⟩

theorem reachable_searched_unbounded_iff (sys : ActorSystem τ μ) :
    sys.searched.unbounded.Reachable s ↔ sys.model.unbounded.Reachable s :=
  reachable_searched_iff { sys with boundary := fun _ => .ok true }

end StateSpace.ActorSystem
