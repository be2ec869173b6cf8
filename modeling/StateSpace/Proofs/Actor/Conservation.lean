import StateSpace.Proofs.Actor.Steps
import StateSpace.Systems.Clocks

/-!
# Envelopes are neither made nor lost

* `delivered`, `dropped` : the envelopes that actions deliver and drop; `inputsTo i` : what they deliver to an actor;
* `sentOn sys s a` : what the receiver of a delivery sends; `sentAlong` : what is sent along a run;
* `Actor.absorb` : an actor by itself, fed with inputs;
* `Event.conserves`, `conserves_along` : a step, and so a run, takes out of the network exactly what it delivers and
  drops, and adds what is sent;
* `Event.absorbs`, `absorbs_along` : a step, and so a run, moves an actor by the inputs delivered to it;
* `envelopes_linear` : both, from the start.
-/

namespace StateSpace

variable {τ μ : Type}

def delivered (actions : List (NetAction μ)) : List (Envelope μ) :=
  actions.filterMap fun
    | .deliver e => some e
    | .drop _ => none

def dropped (actions : List (NetAction μ)) : List (Envelope μ) :=
  actions.filterMap fun
    | .deliver _ => none
    | .drop e => some e

/-- The senders and messages that actions deliver to an actor, in order. -/
def inputsTo (i : ActorId) (actions : List (NetAction μ)) : List (ActorId × μ) :=
  ((delivered actions).filter (·.dst = i)).map fun e => (e.src, e.msg)

theorem delivered_append (as bs : List (NetAction μ)) : delivered (as ++ bs) = delivered as ++ delivered bs :=
  List.filterMap_append

theorem dropped_append (as bs : List (NetAction μ)) : dropped (as ++ bs) = dropped as ++ dropped bs :=
  List.filterMap_append

theorem inputsTo_append (i : ActorId) (as bs : List (NetAction μ)) :
    inputsTo i (as ++ bs) = inputsTo i as ++ inputsTo i bs := by
  rw [inputsTo, delivered_append, List.filter_append, List.map_append]
  rfl

theorem inputsTo_deliver_self (e : Envelope μ) : inputsTo e.dst [.deliver e] = [(e.src, e.msg)] := by
  simp [inputsTo, delivered]

theorem inputsTo_deliver_ne {e : Envelope μ} {i : ActorId} (h : e.dst ≠ i) : inputsTo i [.deliver e] = [] := by
  simp [inputsTo, delivered, h]

/-- The state of an actor that is fed with inputs one after another, unless it declines one or raises a fault. -/
def Actor.absorb (actor : Actor τ μ) (state : τ) : List (ActorId × μ) → Except Fault (Option τ)
  | [] => .ok (some state)
  | (src, msg) :: rest => do
    match ← actor.advance state src msg with
    | none => return none
    | some r => actor.absorb r.state rest

theorem Actor.absorb_cons {actor : Actor τ μ} {state : τ} {src : ActorId} {msg : μ} {r : Reaction τ μ}
    (rest : List (ActorId × μ)) (hr : actor.advance state src msg = .ok (some r)) :
    actor.absorb state ((src, msg) :: rest) = actor.absorb r.state rest := by
  rw [absorb, hr]
  rfl

namespace ActorSystem

/-- What the receiver sends if the action is a delivery that it accepts. -/
def sentOn (sys : ActorSystem τ μ) (s : SystemState τ μ) : NetAction μ → List (Envelope μ)
  | .deliver e =>
    match sys.actors[e.dst]?, s.actors[e.dst]? with
    | some actor, some state =>
      match actor.advance state e.src e.msg with
      | .ok (some r) => r.outputs.stamp e.dst
      | _ => []
    | _, _ => []
  | .drop _ => []

/-- What is sent along the steps from a state. -/
def sentAlong (sys : ActorSystem τ μ) : SystemState τ μ → List (NetAction μ × SystemState τ μ) → List (Envelope μ)
  | _, [] => []
  | s, (a, t) :: rest => sys.sentOn s a ++ sys.sentAlong t rest

variable [Ord μ] [DecidableEq μ] {sys : ActorSystem τ μ} {s t : SystemState τ μ} {a : NetAction μ}

/-! ## One step -/

/-- A step takes the envelope it is about out of the network and adds what is sent. -/
theorem Event.conserves (h : Event sys s a t) :
    (s.network ++ sys.sentOn s a).Perm (t.network ++ delivered [a] ++ dropped [a]) := by
  cases h with
  | @deliver e actor state r he ha hs hr =>
    have hsent : sys.sentOn s (.deliver e) = r.outputs.stamp e.dst := by
      simp only [sentOn, ha, hs, hr]
    rw [hsent]
    refine List.perm_iff_count.2 fun x => ?_
    have hout := (Network.remove_perm he).count_eq x
    have hin := (Network.post_perm (Network.remove s.network e) e.dst r.outputs).count_eq x
    simp only [delivered, dropped, List.filterMap_cons, List.filterMap_nil, List.count_append, List.count_cons,
      List.count_nil] at hout hin ⊢
    omega
  | @drop e hl he =>
    refine List.perm_iff_count.2 fun x => ?_
    have hout := (Network.remove_perm he).count_eq x
    simp only [sentOn, delivered, dropped, List.filterMap_cons, List.filterMap_nil, List.count_append, List.count_cons,
      List.count_nil] at hout ⊢
    omega

theorem Event.length_actors (h : Event sys s a t) : t.actors.length = s.actors.length := by
  cases h with
  | deliver => exact List.length_set
  | drop => rfl

/-- A step moves an actor by what it delivers to that actor. -/
theorem Event.absorbs (h : Event sys s a t) {i : ActorId} {actor : Actor τ μ} {state : τ}
    (ha : sys.actors[i]? = some actor) (hs : s.actors[i]? = some state) :
    ∃ state', t.actors[i]? = some state' ∧
      ∀ rest, actor.absorb state (inputsTo i [a] ++ rest) = actor.absorb state' rest := by
  cases h with
  | @deliver e actor' old r _ ha' hs' hr =>
    by_cases hi : e.dst = i
    · subst hi
      cases ha.symm.trans ha'
      cases hs.symm.trans hs'
      refine ⟨r.state, List.getElem?_set_self (List.getElem?_eq_some_iff.1 hs).1, fun rest => ?_⟩
      rw [inputsTo_deliver_self]
      exact Actor.absorb_cons rest hr
    · refine ⟨state, (List.getElem?_set_ne hi).trans hs, fun rest => ?_⟩
      rw [inputsTo_deliver_ne hi, List.nil_append]
  | drop => exact ⟨state, hs, fun rest => rfl⟩

/-! ## Runs -/

variable [ToWord τ] [ToWord μ] {steps : List (NetAction μ × SystemState τ μ)}

/-- What is in flight and what is sent along a run ends up in flight, delivered or dropped. -/
theorem conserves_along (h : Path.Along sys.model.unbounded s steps) :
    (s.network ++ sys.sentAlong s steps).Perm ((⟨s, steps⟩ : Path _ _).last.network ++
      delivered (steps.map Prod.fst) ++ dropped (steps.map Prod.fst)) := by
  induction steps generalizing s with
  | nil => simp [sentAlong, delivered, dropped, Path.last]
  | cons x steps ih =>
    obtain ⟨a, t⟩ := x
    have hstep := (step_unbounded_iff.1 h.2.1).conserves
    have hrest := ih h.2.2
    have hacts : ((a, t) :: steps).map Prod.fst = [a] ++ steps.map Prod.fst := rfl
    rw [Path.last_cons, sentAlong, hacts, delivered_append, dropped_append]
    refine List.perm_iff_count.2 fun y => ?_
    have hstep := hstep.count_eq y
    have hrest := hrest.count_eq y
    simp only [List.count_append] at hstep hrest ⊢
    omega

theorem length_actors_along (h : Path.Along sys.model.unbounded s steps) :
    ∀ t ∈ (⟨s, steps⟩ : Path _ _).states, t.actors.length = s.actors.length := by
  induction steps generalizing s with
  | nil =>
    intro t ht
    rw [List.mem_singleton.1 ht]
  | cons x steps ih =>
    intro t ht
    rcases List.mem_cons.1 ht with rfl | ht
    · rfl
    · exact (ih h.2.2 t ht).trans (step_unbounded_iff.1 h.2.1).length_actors

theorem absorbs_along (h : Path.Along sys.model.unbounded s steps) {i : ActorId} {actor : Actor τ μ} {state : τ}
    (ha : sys.actors[i]? = some actor) (hs : s.actors[i]? = some state) :
    ∃ state', (⟨s, steps⟩ : Path _ _).last.actors[i]? = some state' ∧
      actor.absorb state (inputsTo i (steps.map Prod.fst)) = .ok (some state') := by
  induction steps generalizing s state with
  | nil => exact ⟨state, hs, rfl⟩
  | cons x steps ih =>
    obtain ⟨a, t⟩ := x
    obtain ⟨next, hnext, hfeed⟩ := (step_unbounded_iff.1 h.2.1).absorbs ha hs
    obtain ⟨state', hlast, habsorb⟩ := ih h.2.2 hnext
    have hacts : ((a, t) :: steps).map Prod.fst = [a] ++ steps.map Prod.fst := rfl
    refine ⟨state', ?_, ?_⟩
    · rwa [Path.last_cons]
    · rw [hacts, inputsTo_append, hfeed, habsorb]

theorem absorbs_run {p : Path (SystemState τ μ) (NetAction μ)} (hp : p.IsRun sys.model.unbounded) {i : ActorId}
    {actor : Actor τ μ} (ha : sys.actors[i]? = some actor) :
    ∃ state, p.last.actors[i]? = some state ∧
      actor.absorb actor.start.state (inputsTo i p.actions) = .ok (some state) := by
  have hinit : p.init = sys.initial := List.mem_singleton.1 hp.init_mem
  refine absorbs_along hp.along ha ?_
  rw [hinit, initial, List.getElem?_map, ha]
  rfl

/-- **Envelopes are linear**: each copy that was ever sent is in flight, delivered or dropped, and an actor ends where
the inputs delivered to it take it. -/
theorem envelopes_linear (sys : ActorSystem τ μ) (p : Path (SystemState τ μ) (NetAction μ))
    (hp : p.IsRun sys.model.unbounded) :
    (sys.initNetwork ++ sys.sentAtStart ++ sys.sentAlong p.init p.steps).Perm
      (p.last.network ++ delivered p.actions ++ dropped p.actions) ∧
    (∀ s ∈ p.states, s.actors.length = sys.actors.length) ∧
    (∀ (k : Nat) (s : SystemState τ μ) (e : Envelope μ), p.states[k]? = some s → p.actions[k]? = some (.deliver e) →
      e.dst < s.actors.length) ∧
    ∀ (i : ActorId) (actor : Actor τ μ), sys.actors[i]? = some actor →
      (∃ state, p.last.actors[i]? = some state ∧
        actor.absorb actor.start.state (inputsTo i p.actions) = .ok (some state)) ∧
      ∀ (sys' : ActorSystem τ μ) (p' : Path (SystemState τ μ) (NetAction μ)) (j : ActorId),
        p'.IsRun sys'.model.unbounded → sys'.actors[j]? = some actor → inputsTo j p'.actions = inputsTo i p.actions →
        p'.last.actors[j]? = p.last.actors[i]? := by
  have hinit : p.init = sys.initial := List.mem_singleton.1 hp.init_mem
  refine ⟨?_, ?_, ?_, ?_⟩
  · have hstart := initial_perm sys
    rw [← hinit] at hstart
    exact (hstart.symm.append_right _).trans (conserves_along hp.along)
  · intro s hs
    rw [length_actors_along hp.along s hs, hinit]
    exact List.length_map _
  · intro k s e hs he
    obtain ⟨t, -, hstep⟩ := hp.along.step_at hs he
    cases step_unbounded_iff.1 hstep with
    | deliver _ _ hstate _ => exact (List.getElem?_eq_some_iff.1 hstate).1
  · intro i actor ha
    obtain ⟨state, hlast, habsorb⟩ := absorbs_run hp ha
    refine ⟨⟨state, hlast, habsorb⟩, fun sys' p' j hp' ha' hinputs => ?_⟩
    obtain ⟨state', hlast', habsorb'⟩ := absorbs_run hp' ha'
    rw [hinputs, habsorb] at habsorb'
    cases habsorb'
    rw [hlast, hlast']

/-- Two clocks on a lossy network that holds two copies of an envelope and one to an actor that does not exist. -/
def straySystem : ActorSystem UInt32 UInt32 :=
  { clocks 2 with initNetwork := [⟨1, 0, 1⟩, ⟨0, 7, 4⟩, ⟨1, 0, 1⟩], lossy := true }

/-- One copy is delivered and the other dropped. -/
def strayRun : Path (SystemState UInt32 UInt32) (NetAction UInt32) where
  init := ⟨[0, 0], [⟨0, 7, 4⟩, ⟨1, 0, 1⟩, ⟨1, 0, 1⟩]⟩
  steps :=
    [(.deliver ⟨1, 0, 1⟩, ⟨[1, 0], [⟨0, 1, 2⟩, ⟨0, 7, 4⟩, ⟨1, 0, 1⟩]⟩),
      (.drop ⟨1, 0, 1⟩, ⟨[1, 0], [⟨0, 1, 2⟩, ⟨0, 7, 4⟩]⟩)]

/-- Two clocks, of which one has sent itself a timestamp. -/
def echoSystem : ActorSystem UInt32 UInt32 := { clocks 2 with initNetwork := [⟨1, 1, 1⟩] }

/-- Another clock gets the same input, from itself. -/
def echoRun : Path (SystemState UInt32 UInt32) (NetAction UInt32) where
  init := ⟨[0, 0], [⟨1, 1, 1⟩]⟩
  steps := [(.deliver ⟨1, 1, 1⟩, ⟨[0, 1], [⟨1, 1, 2⟩]⟩)]

theorem isRun_strayRun : strayRun.IsRun straySystem.model.unbounded where
  init_mem := by decide +kernel
  along := by
    refine ⟨rfl, step_unbounded_iff.2 (.deliver (r := ⟨1, [⟨1, 2⟩]⟩) ?_ rfl rfl rfl), rfl,
      step_unbounded_iff.2 (.drop rfl ?_), trivial⟩
    · decide
    · decide

theorem isRun_echoRun : echoRun.IsRun echoSystem.model.unbounded where
  init_mem := by decide +kernel
  along := by
    refine ⟨rfl, step_unbounded_iff.2 (.deliver (r := ⟨1, [⟨1, 2⟩]⟩) ?_ rfl rfl rfl), trivial⟩
    decide

theorem envelopes_linear_strayRun :
    ([⟨1, 0, 1⟩, ⟨0, 7, 4⟩, ⟨1, 0, 1⟩] ++ [⟨0, 1, 2⟩] : List (Envelope UInt32)).Perm
      ([⟨0, 1, 2⟩, ⟨0, 7, 4⟩] ++ [⟨1, 0, 1⟩] ++ [⟨1, 0, 1⟩]) ∧
    0 < strayRun.init.actors.length ∧
    clock.absorb 0 [(1, 1)] = .ok (some 1) ∧
    echoRun.last.actors[1]? = strayRun.last.actors[0]? := by
  obtain ⟨hperm, -, hbound, hinputs⟩ := envelopes_linear straySystem strayRun isRun_strayRun
  obtain ⟨⟨state, hlast, habsorb⟩, hsame⟩ := hinputs 0 clock rfl
  cases hlast
  exact ⟨hperm, hbound 0 strayRun.init ⟨1, 0, 1⟩ rfl rfl, habsorb, hsame echoSystem echoRun 1 isRun_echoRun rfl rfl⟩

end ActorSystem

end StateSpace
