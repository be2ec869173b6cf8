import StateSpace.Actor.System
import StateSpace.Proofs.Path
import StateSpace.Proofs.Sorted

/-!
# What can happen in a system of actors

* `Outputs.stamp src outputs` : the envelopes of messages that an actor sends;
* `Network.post_perm`, `Network.remove_perm` : posting adds these envelopes and removing takes out one copy, whatever the
  order of messages is;
* `Event sys s a t` : a delivery that the receiver accepts, or a drop on a lossy network; `step_iff` : these are the steps
  of the model;
* `initial_perm` : what is in flight at the start;
* `Event.isSorted`, `isSorted_of_reachable` : networks are sorted, so that equal contents are equal networks.
-/

namespace StateSpace

variable {τ μ : Type}

def Outputs.stamp (src : ActorId) (outputs : Outputs μ) : List (Envelope μ) := outputs.map fun o => ⟨src, o.dst, o.msg⟩

/-! ## Networks -/

instance [Ord μ] [Std.TransOrd μ] : Std.TransOrd (Envelope μ) :=
  inferInstanceAs (Std.TransCmp (compareLex (compareLex (compareOn Envelope.src) (compareOn Envelope.dst))
    (compareOn Envelope.msg)))

instance [Ord μ] [Std.LawfulEqOrd μ] : Std.LawfulEqOrd (Envelope μ) where
  compare_self {a} := by
    show ((compare a.src a.src).then (compare a.dst a.dst)).then (compare a.msg a.msg) = .eq
    simp only [Std.ReflCmp.compare_self, Ordering.then]
  eq_of_compare {a b} h := by
    obtain ⟨h, hmsg⟩ := Ordering.then_eq_eq.1 h
    obtain ⟨hsrc, hdst⟩ := Ordering.then_eq_eq.1 h
    obtain ⟨asrc, adst, amsg⟩ := a
    obtain ⟨bsrc, bdst, bmsg⟩ := b
    rw [Envelope.mk.injEq]
    exact ⟨Std.LawfulEqOrd.eq_of_compare hsrc, Std.LawfulEqOrd.eq_of_compare hdst, Std.LawfulEqOrd.eq_of_compare hmsg⟩

namespace Network

theorem post_perm [Ord μ] (n : Network μ) (src : ActorId) (outputs : Outputs μ) :
    (post n src outputs).Perm (outputs.stamp src ++ n) :=
  Sorted.insertAll_perm _ n

theorem remove_perm [DecidableEq μ] {n : Network μ} {e : Envelope μ} (h : e ∈ n) : n.Perm (e :: remove n e) :=
  List.perm_cons_erase h

end Network

/-! ## Steps -/

namespace ActorSystem

/-- What can happen in a state: a delivery that the receiver accepts, or on a lossy network a drop. -/
inductive Event [Ord μ] [DecidableEq μ] (sys : ActorSystem τ μ) (s : SystemState τ μ) :
    NetAction μ → SystemState τ μ → Prop
  | deliver {e : Envelope μ} {actor : Actor τ μ} {state : τ} {r : Reaction τ μ} (he : e ∈ s.network)
      (ha : sys.actors[e.dst]? = some actor) (hs : s.actors[e.dst]? = some state)
      (hr : actor.advance state e.src e.msg = .ok (some r)) :
    Event sys s (.deliver e)
      ⟨s.actors.set e.dst r.state, Network.post (Network.remove s.network e) e.dst r.outputs⟩
  | drop {e : Envelope μ} (hl : sys.lossy = true) (he : e ∈ s.network) :
    Event sys s (.drop e) ⟨s.actors, Network.remove s.network e⟩

theorem mem_actionsOn {sys : ActorSystem τ μ} {e : Envelope μ} {a : NetAction μ} :
    a ∈ sys.actionsOn e ↔ a = .deliver e ∧ e.dst < sys.actors.length ∨ a = .drop e ∧ sys.lossy = true := by
  unfold actionsOn
  rw [List.mem_append]
  refine or_congr ?_ ?_
  · split <;> simp_all
  · split <;> simp_all

theorem mem_actionsOf_deliver [DecidableEq μ] {sys : ActorSystem τ μ} {s : SystemState τ μ} {e : Envelope μ} :
    .deliver e ∈ sys.actionsOf s ↔ e ∈ s.network ∧ e.dst < sys.actors.length := by
  simp [actionsOf, mem_actionsOn]

theorem mem_actionsOf_drop [DecidableEq μ] {sys : ActorSystem τ μ} {s : SystemState τ μ} {e : Envelope μ} :
    .drop e ∈ sys.actionsOf s ↔ e ∈ s.network ∧ sys.lossy = true := by
  simp [actionsOf, mem_actionsOn]

variable [Ord μ] [DecidableEq μ]

theorem deliver_eq_ok {sys : ActorSystem τ μ} {s t : SystemState τ μ} {e : Envelope μ} :
    sys.deliver s e = .ok (some t) ↔ ∃ actor state r, sys.actors[e.dst]? = some actor ∧ s.actors[e.dst]? = some state ∧
      actor.advance state e.src e.msg = .ok (some r) ∧
      t = ⟨s.actors.set e.dst r.state, Network.post (Network.remove s.network e) e.dst r.outputs⟩ := by
  unfold deliver
  cases ha : sys.actors[e.dst]? with
  | none => simp
  | some actor =>
    cases hs : s.actors[e.dst]? with
    | none => simp
    | some state =>
      cases hr : actor.advance state e.src e.msg with
      | error f => simp [hr, bind, Except.bind]
      | ok reaction =>
        cases reaction with
        | none => simp [hr, bind, Except.bind, pure, Except.pure]
        | some r => simp [hr, bind, Except.bind, pure, Except.pure, eq_comm]

theorem nextOf_deliver (sys : ActorSystem τ μ) (s : SystemState τ μ) (e : Envelope μ) :
    sys.nextOf s (.deliver e) = if e ∈ s.network then sys.deliver s e else .ok none := rfl

theorem nextOf_drop (sys : ActorSystem τ μ) (s : SystemState τ μ) (e : Envelope μ) : sys.nextOf s (.drop e) =
    if e ∈ s.network then .ok (some ⟨s.actors, Network.remove s.network e⟩) else .ok none := rfl

variable [ToWord τ] [ToWord μ]

/-- **The steps of a system** are its events. -/
theorem step_iff {sys : ActorSystem τ μ} {s t : SystemState τ μ} {a : NetAction μ} :
    sys.model.Step s a t ↔ Event sys s a t := by
  have hacts : (∃ as, sys.model.actions s = .ok as ∧ a ∈ as) ↔ a ∈ sys.actionsOf s := by
    simp [model]
  rw [Model.Step, hacts]
  cases a with
  | deliver e =>
    have hnext : sys.model.next s (.deliver e) = _ := nextOf_deliver sys s e
    rw [mem_actionsOf_deliver, hnext]
    constructor
    · rintro ⟨⟨he, -⟩, hn⟩
      rw [if_pos he] at hn
      obtain ⟨actor, state, r, ha, hs, hr, rfl⟩ := deliver_eq_ok.1 hn
      exact .deliver he ha hs hr
    · intro h
      cases h with
      | deliver he ha hs hr =>
        rw [if_pos he]
        exact ⟨⟨he, (List.getElem?_eq_some_iff.1 ha).1⟩, deliver_eq_ok.2 ⟨_, _, _, ha, hs, hr, rfl⟩⟩
  | drop e =>
    have hnext : sys.model.next s (.drop e) = _ := nextOf_drop sys s e
    rw [mem_actionsOf_drop, hnext]
    constructor
    · rintro ⟨⟨he, hl⟩, hn⟩
      rw [if_pos he] at hn
      cases hn
      exact .drop hl he
    · intro h
      cases h with
      | drop hl he =>
        rw [if_pos he]
        exact ⟨⟨he, hl⟩, rfl⟩

theorem step_unbounded_iff {sys : ActorSystem τ μ} {s t : SystemState τ μ} {a : NetAction μ} :
    sys.model.unbounded.Step s a t ↔ Event sys s a t :=
  Model.step_unbounded.trans step_iff

omit [DecidableEq μ] [ToWord τ] [ToWord μ]

/-! ## The start -/

def sentAtStart (sys : ActorSystem τ μ) : List (Envelope μ) :=
  sys.actors.zipIdx.flatMap fun (a, id) => a.start.outputs.stamp id

theorem initial_perm (sys : ActorSystem τ μ) : sys.initial.network.Perm (sys.initNetwork ++ sys.sentAtStart) := by
  have hfold (l : List (Actor τ μ × Nat)) (n : Network μ) :
      (l.foldl (fun n (a, id) => Network.post n id a.start.outputs) n).Perm
        (n ++ l.flatMap fun (a, id) => a.start.outputs.stamp id) := by
    induction l generalizing n with
    | nil => rw [List.flatMap_nil, List.append_nil]; rfl
    | cons x l ih =>
      refine (ih _).trans ?_
      rw [List.flatMap_cons, ← List.append_assoc]
      exact ((Network.post_perm n x.2 x.1.start.outputs).trans List.perm_append_comm).append_right _
  exact (hfold _ _).trans ((Sorted.ofList_perm sys.initNetwork).append_right _)

/-! ## Sorted networks -/

section

variable [Std.TransOrd μ]

theorem isSorted_initial (sys : ActorSystem τ μ) : Sorted.IsSorted sys.initial.network := by
  have hfold (l : List (Actor τ μ × Nat)) (n : Network μ) (hn : Sorted.IsSorted n) :
      Sorted.IsSorted (l.foldl (fun n (a, id) => Network.post n id a.start.outputs) n) := by
    induction l generalizing n with
    | nil => exact hn
    | cons x l ih => exact ih _ (hn.insertAll _)
  exact hfold _ _ (Sorted.isSorted_ofList sys.initNetwork)

variable [DecidableEq μ]

theorem Event.isSorted {sys : ActorSystem τ μ} {s t : SystemState τ μ} {a : NetAction μ} (h : Event sys s a t)
    (hs : Sorted.IsSorted s.network) : Sorted.IsSorted t.network := by
  cases h with
  | deliver => exact (hs.erase _).insertAll _
  | drop => exact hs.erase _

variable [ToWord τ] [ToWord μ]

theorem isSorted_of_reachable {sys : ActorSystem τ μ} {s : SystemState τ μ} (h : sys.model.unbounded.Reachable s) :
    Sorted.IsSorted s.network := by
  induction h with
  | init hi =>
    cases List.mem_singleton.1 hi
    exact isSorted_initial sys
  | step _ _ hstep ih => exact (step_unbounded_iff.1 hstep).isSorted ih

end

end ActorSystem

end StateSpace
