import StateSpace.Proofs.Actor.Steps
import StateSpace.Systems.Clocks

/-!
# Deliveries to different actors commute

* `Acts sys actors a actors' sent` : what an action does to the actors' states, and the envelopes that it sends;
  `nextOf_eq_some` : together with the envelope that it consumes this is all that it does;
* `Acts.swap` : unless both deliver to one actor, two actions do the same in either order;
* `Performed.balance` : what is in flight after an action;
* `Performed.swap` : two actions that both apply can be performed in the other order, with the same result;
* `deliveries_commute` : so the order does not matter.
-/

namespace StateSpace

/-- Two actions one after the other, which lead somewhere if both apply. -/
def Model.nextTwo {σ α : Type} (m : Model σ α) (s : σ) (a b : α) : Except Fault (Option σ) := do
  match ← m.next s a with
  | none => return none
  | some t => m.next t b

variable {τ μ : Type}

def NetAction.envelope : NetAction μ → Envelope μ
  | .deliver e | .drop e => e

/-- The actions do not both deliver to one actor. -/
def NetAction.Independent (a b : NetAction μ) : Prop := ∀ e e', a = .deliver e → b = .deliver e' → e.dst ≠ e'.dst

theorem NetAction.Independent.symm {a b : NetAction μ} (h : a.Independent b) : b.Independent a :=
  fun e e' hb ha => (h e' e ha hb).symm

namespace ActorSystem

def Faultless (sys : ActorSystem τ μ) : Prop :=
  ∀ actor ∈ sys.actors, ∀ state src msg, ∃ reaction, actor.advance state src msg = .ok reaction

variable {sys : ActorSystem τ μ}

/-! ## What actors do -/

/-- What an action that applies does to the actors' states, and the envelopes that it sends. -/
inductive Acts (sys : ActorSystem τ μ) (actors : List τ) : NetAction μ → List τ → List (Envelope μ) → Prop
  | deliver {e : Envelope μ} {actor : Actor τ μ} {state : τ} {r : Reaction τ μ} (ha : sys.actors[e.dst]? = some actor)
      (hs : actors[e.dst]? = some state) (hr : actor.advance state e.src e.msg = .ok (some r)) :
    Acts sys actors (.deliver e) (actors.set e.dst r.state) (r.outputs.stamp e.dst)
  | drop {e : Envelope μ} : Acts sys actors (.drop e) actors []

/-- Unless both deliver to one actor, two actions do the same in either order. -/
theorem Acts.swap {actors actors₁ actors₂ : List τ} {a b : NetAction μ} {sent sent' : List (Envelope μ)}
    (ha : Acts sys actors a actors₁ sent) (hb : Acts sys actors₁ b actors₂ sent') (hab : a.Independent b) :
    ∃ actors', Acts sys actors b actors' sent' ∧ Acts sys actors' a actors₂ sent := by
  cases ha with
  | drop => exact ⟨actors₂, hb, .drop⟩
  | @deliver e actor state r hactor hstate hreaction =>
    cases hb with
    | drop => exact ⟨actors, .drop, .deliver hactor hstate hreaction⟩
    | @deliver e' actor' state' r' hactor' hstate' hreaction' =>
      -- each receiver is in the state that it would be in without the other delivery
      have hne : e.dst ≠ e'.dst := hab e e' rfl rfl
      rw [List.getElem?_set_ne hne] at hstate'
      refine ⟨actors.set e'.dst r'.state, .deliver hactor' hstate' hreaction', ?_⟩
      rw [List.set_comm _ _ hne]
      refine .deliver hactor ?_ hreaction
      rwa [List.getElem?_set_ne hne.symm]

/-! ## What happens to the network -/

open scoped List

variable [Ord μ] [DecidableEq μ]

/-- The action leads from the first state to the second and sends the envelopes of the list. -/
structure Performed (sys : ActorSystem τ μ) (s : SystemState τ μ) (a : NetAction μ) (t : SystemState τ μ)
    (sent : List (Envelope μ)) : Prop where
  mem : a.envelope ∈ s.network
  acts : Acts sys s.actors a t.actors sent
  network : t.network = Sorted.insertAll sent (Network.remove s.network a.envelope)

theorem nextOf_eq_some {s t : SystemState τ μ} {a : NetAction μ} :
    sys.nextOf s a = .ok (some t) ↔ ∃ sent, Performed sys s a t sent := by
  cases a with
  | deliver e =>
    rw [nextOf_deliver]
    constructor
    · intro h
      split at h
      · rename_i he
        obtain ⟨actor, state, r, ha, hs, hr, rfl⟩ := deliver_eq_ok.1 h
        exact ⟨_, he, .deliver ha hs hr, rfl⟩
      · cases h
    · rintro ⟨sent, he, hacts, hnet⟩
      obtain ⟨actors, network⟩ := t
      cases hacts with
      | @deliver _ actor state r ha hs hr =>
        rw [if_pos (show e ∈ s.network from he)]
        refine deliver_eq_ok.2 ⟨actor, state, r, ha, hs, hr, ?_⟩
        rw [SystemState.mk.injEq]
        exact ⟨rfl, hnet⟩
  | drop e =>
    rw [nextOf_drop]
    constructor
    · intro h
      split at h
      · rename_i he
        cases h
        exact ⟨[], he, .drop, rfl⟩
      · cases h
    · rintro ⟨sent, he, hacts, hnet⟩
      obtain ⟨actors, network⟩ := t
      cases hacts with
      | drop =>
        rw [if_pos (show e ∈ s.network from he)]
        exact congrArg _ (congrArg _ (congrArg _ hnet.symm))

/-- An action takes its envelope out of the network and puts in those that it sends. -/
theorem Performed.balance {s t : SystemState τ μ} {a : NetAction μ} {sent : List (Envelope μ)}
    (h : Performed sys s a t sent) : (a.envelope :: t.network).Perm (sent ++ s.network) := by
  rw [h.network]
  calc a.envelope :: Sorted.insertAll sent (Network.remove s.network a.envelope)
    _ ~ a.envelope :: (sent ++ Network.remove s.network a.envelope) := (Sorted.insertAll_perm _ _).cons _
    _ ~ sent ++ a.envelope :: Network.remove s.network a.envelope := List.perm_middle.symm
    _ ~ sent ++ s.network := (Network.remove_perm h.mem).symm.append_left _

theorem Performed.balance_two {s t u : SystemState τ μ} {a b : NetAction μ} {sent sent' : List (Envelope μ)}
    (ha : Performed sys s a t sent) (hb : Performed sys t b u sent') :
    (a.envelope :: b.envelope :: u.network).Perm (sent' ++ (sent ++ s.network)) := by
  calc a.envelope :: b.envelope :: u.network
    _ ~ a.envelope :: (sent' ++ t.network) := hb.balance.cons _
    _ ~ sent' ++ a.envelope :: t.network := List.perm_middle.symm
    _ ~ sent' ++ (sent ++ s.network) := ha.balance.append_left _

/-- An envelope is still in flight after an action on another one, or on another copy. -/
theorem mem_of_performed {s t : SystemState τ μ} {a : NetAction μ} {e : Envelope μ} {sent : List (Envelope μ)}
    (h : Performed sys s a t sent) (he : e ∈ s.network) (hcopies : e ≠ a.envelope ∨ 2 ≤ s.network.count a.envelope) :
    e ∈ t.network := by
  have hrest : e ∈ Network.remove s.network a.envelope := by
    by_cases heq : e = a.envelope
    · have htwo := hcopies.resolve_left fun hne => hne heq
      rw [heq, ← List.count_pos_iff, Network.remove, List.count_erase_self]
      omega
    · exact (List.mem_erase_of_ne heq).2 he
  rw [h.network]
  exact (Sorted.insertAll_perm _ _).mem_iff.2 (List.mem_append_right _ hrest)

/-- **Two actions that both apply can be performed in the other order**, with the same effect on the actors and the
network. -/
theorem Performed.swap {s t u : SystemState τ μ} {a b : NetAction μ} {sent sent' : List (Envelope μ)}
    (ha : Performed sys s a t sent) (hb : Performed sys t b u sent') (hmem : b.envelope ∈ s.network)
    (hcopies : a.envelope ≠ b.envelope ∨ 2 ≤ s.network.count b.envelope) (hab : a.Independent b) :
    ∃ t' u', Performed sys s b t' sent' ∧ Performed sys t' a u' sent ∧ u'.actors = u.actors ∧
      u'.network.Perm u.network := by
  obtain ⟨actors, hacts, hacts'⟩ := ha.acts.swap hb.acts hab
  have hb' : Performed sys s b ⟨actors, Sorted.insertAll sent' (Network.remove s.network b.envelope)⟩ sent' :=
    ⟨hmem, hacts, rfl⟩
  have ha' : Performed sys ⟨actors, Sorted.insertAll sent' (Network.remove s.network b.envelope)⟩ a
      ⟨u.actors, Sorted.insertAll sent (Network.remove (Sorted.insertAll sent' (Network.remove s.network b.envelope))
        a.envelope)⟩ sent :=
    ⟨mem_of_performed hb' ha.mem hcopies, hacts', rfl⟩
  refine ⟨_, _, hb', ha', rfl, ?_⟩
  -- both networks come from the first by the same envelopes
  have hboth := (hb'.balance_two ha').trans (List.perm_append_comm_assoc sent sent' s.network)
  exact ((List.Perm.swap _ _ _).trans (hboth.trans (ha.balance_two hb).symm)).cons_inv.cons_inv

theorem Performed.isSorted [Std.TransOrd μ] {s t : SystemState τ μ} {a : NetAction μ} {sent : List (Envelope μ)}
    (h : Performed sys s a t sent) (hs : Sorted.IsSorted s.network) : Sorted.IsSorted t.network := by
  rw [h.network]
  exact (hs.erase _).insertAll _

/-! ## Two actions -/

theorem deliver_ok (hf : sys.Faultless) (s : SystemState τ μ) (e : Envelope μ) : ∃ o, sys.deliver s e = .ok o := by
  unfold deliver
  split
  · rename_i actor state ha _
    obtain ⟨reaction, hr⟩ := hf actor (List.mem_of_getElem? ha) state e.src e.msg
    rw [hr]
    cases reaction with
    | none => exact ⟨none, rfl⟩
    | some r => exact ⟨some _, rfl⟩
  · exact ⟨none, rfl⟩

theorem nextOf_ok (hf : sys.Faultless) (s : SystemState τ μ) (a : NetAction μ) : ∃ o, sys.nextOf s a = .ok o := by
  cases a with
  | deliver e =>
    rw [nextOf_deliver]
    split
    · exact deliver_ok hf s e
    · exact ⟨none, rfl⟩
  | drop e =>
    rw [nextOf_drop]
    split
    · exact ⟨some _, rfl⟩
    · exact ⟨none, rfl⟩

variable [ToWord τ] [ToWord μ]

theorem nextTwo_eq {s : SystemState τ μ} {a : NetAction μ} {o : Option (SystemState τ μ)} (h : sys.nextOf s a = .ok o)
    (b : NetAction μ) : sys.model.nextTwo s a b = o.elim (.ok none) fun t => sys.nextOf t b := by
  have hnext : sys.model.next s a = .ok o := h
  unfold Model.nextTwo
  rw [hnext]
  cases o with
  | none => rfl
  | some t => rfl

theorem nextTwo_ok (hf : sys.Faultless) (s : SystemState τ μ) (a b : NetAction μ) :
    ∃ o, sys.model.nextTwo s a b = .ok o := by
  obtain ⟨o, ho⟩ := nextOf_ok hf s a
  rw [nextTwo_eq ho]
  cases o with
  | none => exact ⟨none, rfl⟩
  | some t => exact nextOf_ok hf t b

theorem nextTwo_eq_some (hf : sys.Faultless) {s u : SystemState τ μ} {a b : NetAction μ} :
    sys.model.nextTwo s a b = .ok (some u) ↔
      ∃ t sent sent', Performed sys s a t sent ∧ Performed sys t b u sent' := by
  constructor
  · intro h
    obtain ⟨o, ho⟩ := nextOf_ok hf s a
    rw [nextTwo_eq ho] at h
    cases o with
    | none => cases h
    | some t =>
      obtain ⟨sent, hsent⟩ := nextOf_eq_some.1 ho
      obtain ⟨sent', hsent'⟩ := nextOf_eq_some.1 h
      exact ⟨t, sent, sent', hsent, hsent'⟩
  · rintro ⟨t, sent, sent', hsent, hsent'⟩
    rw [nextTwo_eq (nextOf_eq_some.2 ⟨sent, hsent⟩)]
    exact nextOf_eq_some.2 ⟨sent', hsent'⟩

/-- If two actions apply in one order they apply in the other, to the same effect. -/
theorem nextTwo_swap (hf : sys.Faultless) {s u : SystemState τ μ} {a b : NetAction μ}
    (h : sys.model.nextTwo s a b = .ok (some u)) (hmem : b.envelope ∈ s.network)
    (hcopies : a.envelope ≠ b.envelope ∨ 2 ≤ s.network.count b.envelope) (hab : a.Independent b) :
    ∃ u', sys.model.nextTwo s b a = .ok (some u') ∧ u.actors = u'.actors ∧ u.network.Perm u'.network ∧
      ([Std.TransOrd μ] → [Std.LawfulEqOrd μ] → Sorted.IsSorted s.network → u = u') := by
  obtain ⟨t, sent, sent', ha, hb⟩ := (nextTwo_eq_some hf).1 h
  obtain ⟨t', u', hb', ha', hactors, hperm⟩ := ha.swap hb hmem hcopies hab
  refine ⟨u', (nextTwo_eq_some hf).2 ⟨t', sent', sent, hb', ha'⟩, hactors.symm, hperm.symm, ?_⟩
  intro _ _ hs
  have hnetwork : u.network = u'.network :=
    (hb.isSorted (ha.isSorted hs)).eq_of_perm (ha'.isSorted (hb'.isSorted hs)) hperm.symm
  obtain ⟨actors, network⟩ := u
  obtain ⟨actors', network'⟩ := u'
  rw [SystemState.mk.injEq]
  exact ⟨hactors.symm, hnetwork⟩

/-- **Deliveries to different actors commute**, and so do any two actions that do not both deliver to one actor: what
is in flight is the same in either order, and with linearly ordered messages the state is. -/
theorem deliveries_commute (sys : ActorSystem τ μ) (hf : sys.Faultless) (s : SystemState τ μ) (a b : NetAction μ)
    (ha : a.envelope ∈ s.network) (hb : b.envelope ∈ s.network)
    (hcopies : a.envelope ≠ b.envelope ∨ 2 ≤ s.network.count a.envelope) (hab : a.Independent b) :
    (sys.model.nextTwo s a b = .ok none ∧ sys.model.nextTwo s b a = .ok none) ∨
    ∃ t t', sys.model.nextTwo s a b = .ok (some t) ∧ sys.model.nextTwo s b a = .ok (some t') ∧
      t.actors = t'.actors ∧ t.network.Perm t'.network ∧
      ([Std.TransOrd μ] → [Std.LawfulEqOrd μ] → Sorted.IsSorted s.network →
        t = t' ∧ t.hash = t'.hash ∧ sys.model.fingerprint t = sys.model.fingerprint t') := by
  obtain ⟨o, ho⟩ := nextTwo_ok hf s a b
  obtain ⟨o', ho'⟩ := nextTwo_ok hf s b a
  have hcopies' : a.envelope ≠ b.envelope ∨ 2 ≤ s.network.count b.envelope := by
    by_cases heq : a.envelope = b.envelope
    · rw [← heq]
      exact Or.inr (hcopies.resolve_left fun hne => hne heq)
    · exact Or.inl heq
  cases o with
  | some t =>
    obtain ⟨t', ht', hactors, hperm, heq⟩ := nextTwo_swap hf ho hb hcopies' hab
    refine Or.inr ⟨t, t', ho, ht', hactors, hperm, fun hs => ?_⟩
    rw [heq hs]
    exact ⟨rfl, rfl, rfl⟩
  | none =>
    cases o' with
    | none => exact Or.inl ⟨ho, ho'⟩
    | some t' =>
      -- the other order would apply too
      obtain ⟨t, ht, -⟩ := nextTwo_swap hf ho' ha (hcopies.imp_left Ne.symm) hab.symm
      rw [ho] at ht
      cases ht

/-- Two clocks with a timestamp for each, of which one is what the other clock is about to send. -/
def crossing : SystemState UInt32 UInt32 := ⟨[0, 0], [⟨0, 1, 2⟩, ⟨1, 0, 1⟩]⟩

theorem deliveries_commute_crossing : ∃ t,
    (clocks 2).model.nextTwo crossing (.deliver ⟨0, 1, 2⟩) (.deliver ⟨1, 0, 1⟩) = .ok (some t) ∧
    (clocks 2).model.nextTwo crossing (.deliver ⟨1, 0, 1⟩) (.deliver ⟨0, 1, 2⟩) = .ok (some t) ∧
    t = ⟨[1, 2], [⟨0, 1, 2⟩, ⟨1, 0, 3⟩]⟩ := by
  have hf : (clocks 2).Faultless := by
    intro actor hactor state src msg
    rw [List.eq_of_mem_replicate hactor]
    exact ⟨_, rfl⟩
  have hab : (NetAction.deliver ⟨0, 1, 2⟩ : NetAction UInt32).Independent (.deliver ⟨1, 0, 1⟩) := by
    intro e e' he he'
    cases he
    cases he'
    decide
  have hfirst : (clocks 2).model.nextTwo crossing (.deliver ⟨0, 1, 2⟩) (.deliver ⟨1, 0, 1⟩) =
      .ok (some ⟨[1, 2], [⟨0, 1, 2⟩, ⟨1, 0, 3⟩]⟩) := by decide +kernel
  rcases deliveries_commute (clocks 2) hf crossing _ _ (by decide) (by decide) (Or.inl (by decide)) hab with
    ⟨hnone, -⟩ | ⟨t, t', ht, ht', -, -, heq⟩
  · rw [hfirst] at hnone
    cases hnone
  · obtain ⟨rfl, -⟩ := heq (by decide)
    rw [hfirst] at ht
    exact ⟨t, by rw [hfirst, ht], ht', by cases ht; rfl⟩

end ActorSystem

end StateSpace
