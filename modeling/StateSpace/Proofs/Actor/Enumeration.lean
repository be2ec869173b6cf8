import StateSpace.Proofs.Actor.Commutation
import StateSpace.Proofs.Actor.Loss

/-!
# The enabled actions are those that apply

* `nodup_actionsOf`, `actionsOf_congr` : each action is listed once, and the list depends on which envelopes are in flight
  but not on how many copies;
* `nextOf_deliver_of_mem` : a delivery that is listed leads somewhere exactly if the receiver accepts;
* `nextOf_unlisted` : of the actions that are not listed, only the drops of a lossless network lead anywhere;
* `Concordant sys s` : what is listed in a state and what applies in it, side by side;
* `actions_concordant` : they agree in every state.
-/

namespace StateSpace.ActorSystem

variable {τ μ : Type} [Ord μ] [DecidableEq μ] {sys : ActorSystem τ μ} {s : SystemState τ μ}

/-! ## The list of actions -/

omit [Ord μ] [DecidableEq μ] in
theorem nodup_actionsOn (sys : ActorSystem τ μ) (e : Envelope μ) : (sys.actionsOn e).Nodup := by
  unfold actionsOn
  split <;> split <;> simp

omit [Ord μ] [DecidableEq μ] in
theorem envelope_of_mem_actionsOn {e : Envelope μ} {a : NetAction μ} (h : a ∈ sys.actionsOn e) : a.envelope = e := by
  rcases mem_actionsOn.1 h with ⟨rfl, -⟩ | ⟨rfl, -⟩ <;> rfl

section

variable [Std.TransOrd μ] [Std.LawfulEqOrd μ]

theorem nodup_actionsOf (hs : Sorted.IsSorted s.network) : (sys.actionsOf s).Nodup := by
  unfold actionsOf
  rw [List.nodup_flatMap]
  refine ⟨fun e _ => nodup_actionsOn sys e, hs.nodup_distinct.imp fun {e e'} hne => ?_⟩
  intro a ha ha'
  exact hne ((envelope_of_mem_actionsOn ha).symm.trans (envelope_of_mem_actionsOn ha'))

/-- The number of copies of an envelope does not show in the list. -/
theorem actionsOf_congr {s' : SystemState τ μ} (hs : Sorted.IsSorted s.network) (hs' : Sorted.IsSorted s'.network)
    (h : ∀ e, e ∈ s.network ↔ e ∈ s'.network) : sys.actionsOf s = sys.actionsOf s' := by
  unfold actionsOf
  rw [hs.distinct_congr hs' h]

end

/-! ## What applies -/

theorem nextOf_drop_of_mem (sys : ActorSystem τ μ) {e : Envelope μ} (he : e ∈ s.network) :
    ∃ t, sys.nextOf s (.drop e) = .ok (some t) := by
  rw [nextOf_drop, if_pos he]
  exact ⟨_, rfl⟩

/-- A delivery to an actor of the system is decided by that actor. -/
theorem nextOf_deliver_of_mem (hf : sys.Faultless) (hlength : s.actors.length = sys.actors.length) {e : Envelope μ}
    (he : e ∈ s.network) (hdst : e.dst < sys.actors.length) :
    ∃ actor state reaction next, sys.actors[e.dst]? = some actor ∧ s.actors[e.dst]? = some state ∧
      actor.advance state e.src e.msg = .ok reaction ∧ sys.nextOf s (.deliver e) = .ok next ∧
      next.isSome = reaction.isSome := by
  have hdst' : e.dst < s.actors.length := by rwa [hlength]
  have ha : sys.actors[e.dst]? = some sys.actors[e.dst] := List.getElem?_eq_getElem hdst
  have hs : s.actors[e.dst]? = some s.actors[e.dst] := List.getElem?_eq_getElem hdst'
  obtain ⟨reaction, hr⟩ := hf _ (List.getElem_mem hdst) s.actors[e.dst] e.src e.msg
  rw [nextOf_deliver, if_pos he]
  unfold deliver
  rw [ha, hs]
  simp only [hr]
  cases reaction with
  | none => exact ⟨_, _, none, none, rfl, rfl, hr, rfl, rfl⟩
  | some r => exact ⟨_, _, some r, some _, rfl, rfl, hr, rfl, rfl⟩

theorem nextOf_deliver_of_unknown {e : Envelope μ} (hdst : ¬ e.dst < sys.actors.length) :
    sys.nextOf s (.deliver e) = .ok none := by
  have ha : sys.actors[e.dst]? = none := List.getElem?_eq_none (Nat.le_of_not_lt hdst)
  rw [nextOf_deliver]
  unfold deliver
  simp [ha]

/-- An action that is not listed leads nowhere, unless it drops an envelope in flight on a lossless network. -/
theorem nextOf_unlisted {a : NetAction μ} (h : a ∉ sys.actionsOf s) :
    (∃ e ∈ s.network, a = .drop e ∧ sys.lossy = false ∧ ∃ t, sys.nextOf s a = .ok (some t)) ∨
    (¬ ∃ e ∈ s.network, a = .drop e) ∧ sys.nextOf s a = .ok none := by
  cases a with
  | deliver e =>
    refine Or.inr ⟨by simp, ?_⟩
    by_cases he : e ∈ s.network
    · exact nextOf_deliver_of_unknown fun hdst => h (mem_actionsOf_deliver.2 ⟨he, hdst⟩)
    · rw [nextOf_deliver, if_neg he]
  | drop e =>
    by_cases he : e ∈ s.network
    · have hl : sys.lossy = false := by
        by_contra hl
        exact h (mem_actionsOf_drop.2 ⟨he, by simpa using hl⟩)
      exact Or.inl ⟨e, he, rfl, hl, nextOf_drop_of_mem sys he⟩
    · refine Or.inr ⟨by simpa using he, ?_⟩
      rw [nextOf_drop, if_neg he]

/-! ## Agreement -/

/-- What is listed in a state, and what applies in it. -/
structure Concordant (sys : ActorSystem τ μ) (s : SystemState τ μ) : Prop where
  /-- A delivery is listed for an envelope in flight to an actor that there is. -/
  deliver_mem : ∀ e, .deliver e ∈ sys.actionsOf s ↔ e ∈ s.network ∧ e.dst < sys.actors.length
  /-- A drop is listed for an envelope in flight on a lossy network. -/
  drop_mem : ∀ e, .drop e ∈ sys.actionsOf s ↔ e ∈ s.network ∧ sys.lossy = true
  /-- A drop that is listed leads to a state. -/
  drop_next : ∀ e, .drop e ∈ sys.actionsOf s → ∃ t, sys.nextOf s (.drop e) = .ok (some t)
  /-- A delivery that is listed leads to a state exactly if the receiver accepts. -/
  deliver_next : ∀ e, .deliver e ∈ sys.actionsOf s →
    ∃ actor state reaction next, sys.actors[e.dst]? = some actor ∧ s.actors[e.dst]? = some state ∧
      actor.advance state e.src e.msg = .ok reaction ∧ sys.nextOf s (.deliver e) = .ok next ∧
      next.isSome = reaction.isSome
  /-- An action that is not listed leads nowhere, but for drops of envelopes in flight on a lossless network. -/
  unlisted : ∀ a, a ∉ sys.actionsOf s →
    (∃ e ∈ s.network, a = .drop e ∧ sys.lossy = false ∧ ∃ t, sys.nextOf s a = .ok (some t)) ∨
    (¬ ∃ e ∈ s.network, a = .drop e) ∧ sys.nextOf s a = .ok none

/-- **The enabled actions are those that apply**, but for receivers that decline and drops on a lossless network. With
linearly ordered messages, searching a sorted network by the order gives the same actions and states. -/
theorem actions_concordant (sys : ActorSystem τ μ) (hf : sys.Faultless) (s : SystemState τ μ)
    (hlength : s.actors.length = sys.actors.length) :
    Concordant sys s ∧ ([Std.TransOrd μ] → [Std.LawfulEqOrd μ] → Sorted.IsSorted s.network →
      (sys.actionsAlong s = sys.actionsOf s ∧ ∀ a, sys.nextFound s a = sys.nextOf s a) ∧ (sys.actionsOf s).Nodup ∧
      ∀ s' : SystemState τ μ, Sorted.IsSorted s'.network → (∀ e, e ∈ s.network ↔ e ∈ s'.network) →
        sys.actionsOf s = sys.actionsOf s') := by
  refine ⟨⟨fun e => mem_actionsOf_deliver, fun e => mem_actionsOf_drop, fun e he => ?_, fun e he => ?_,
    fun a ha => nextOf_unlisted ha⟩, fun hs => ⟨⟨actionsAlong_eq sys hs, nextFound_eq sys hs⟩, nodup_actionsOf hs,
    fun s' hs' hmem => actionsOf_congr hs hs' hmem⟩⟩
  · exact nextOf_drop_of_mem sys (mem_actionsOf_drop.1 he).1
  · obtain ⟨hnet, hdst⟩ := mem_actionsOf_deliver.1 he
    exact nextOf_deliver_of_mem hf hlength hnet hdst

/-- Two copies of a timestamp that the first clock declines, one that the second accepts, and one to nobody. -/
def assortedMail : SystemState UInt32 UInt32 := ⟨[4, 0], [⟨0, 1, 3⟩, ⟨0, 7, 4⟩, ⟨1, 0, 1⟩, ⟨1, 0, 1⟩]⟩

theorem actions_concordant_assortedMail :
    Concordant strayClocks assortedMail ∧ (strayClocks.actionsOf assortedMail).Nodup ∧
    strayClocks.actionsOf assortedMail = strayClocks.actionsOf ⟨[4, 0], [⟨0, 1, 3⟩, ⟨0, 7, 4⟩, ⟨1, 0, 1⟩]⟩ ∧
    strayClocks.nextOf assortedMail (.drop ⟨0, 7, 4⟩) = .ok (some ⟨[4, 0], [⟨0, 1, 3⟩, ⟨1, 0, 1⟩, ⟨1, 0, 1⟩]⟩) := by
  have hf : strayClocks.Faultless := by
    intro actor hactor state src msg
    rw [List.eq_of_mem_replicate hactor]
    exact ⟨_, rfl⟩
  obtain ⟨hconcordant, hlist⟩ := actions_concordant strayClocks hf assortedMail (by decide)
  obtain ⟨-, hnodup, hcopies⟩ := hlist (by decide)
  exact ⟨hconcordant, hnodup, hcopies _ (by decide) (by simp [assortedMail]), by decide⟩

end StateSpace.ActorSystem
