import Mathlib.Data.Multiset.AddSub
import StateSpace.Proofs.Actor.Lookup
import StateSpace.Systems.Clocks

/-!
# A lossy network only loses

* `ActorSystem.outcomes sys lossy` : what a system can come to on either kind of network, as actors' states and the multiset
  of envelopes in flight;
* `exists_above` : whatever is reached with losses is reached without, with more in flight;
* `exists_below` : on a lossy network any part of what is in flight can be lost;
* `outcomes_lossy` : so the outcomes of a lossy network are those of the lossless one with parts lost.
-/

namespace StateSpace.ActorSystem

variable {τ μ : Type}

def onNetwork (sys : ActorSystem τ μ) (lossy : Bool) : ActorSystem τ μ := { sys with lossy }

variable [Ord μ] [DecidableEq μ] {sys : ActorSystem τ μ}

/-! ## Events on either network -/

/-- A delivery can be made on either network, also with more in flight. -/
theorem Event.deliver_above {lossy : Bool} {s t : SystemState τ μ} {e : Envelope μ} {N : Network μ}
    (h : Event (sys.onNetwork lossy) s (.deliver e) t) (hN : s.network.Subperm N) :
    ∃ N', Event (sys.onNetwork false) ⟨s.actors, N⟩ (.deliver e) ⟨t.actors, N'⟩ ∧ t.network.Subperm N' := by
  cases h with
  | @deliver _ actor state r he ha hs hr =>
    refine ⟨_, .deliver (hN.subset he) ha hs hr, ?_⟩
    have hpost := (List.subperm_append_left (r.outputs.stamp e.dst)).2 (hN.erase e)
    exact ((Network.post_perm _ _ _).subperm.trans hpost).trans (Network.post_perm _ _ _).symm.subperm

theorem Event.lossy {s t : SystemState τ μ} {a : NetAction μ} (h : Event (sys.onNetwork false) s a t) :
    Event (sys.onNetwork true) s a t := by
  cases h with
  | deliver he ha hs hr => exact .deliver he ha hs hr
  | drop hl => cases hl

variable [ToWord τ] [ToWord μ]

/-! ## Outcomes -/

/-- What the system can come to on a network of the given kind, with no boundary: its actors' states, and the envelopes in
flight. -/
def outcomes (sys : ActorSystem τ μ) (lossy : Bool) : Set (List τ × Multiset (Envelope μ)) :=
  {x | ∃ s : SystemState τ μ, (sys.onNetwork lossy).model.unbounded.Reachable s ∧ x = (s.actors, ↑s.network)}

theorem reachable_lossy {s : SystemState τ μ} (h : (sys.onNetwork false).model.unbounded.Reachable s) :
    (sys.onNetwork true).model.unbounded.Reachable s := by
  induction h with
  | init hi => exact .init hi
  | step _ _ hstep ih => exact .step ih rfl (step_unbounded_iff.2 (step_unbounded_iff.1 hstep).lossy)

/-- Whatever is reached with losses is reached without, with at least as much in flight. -/
theorem exists_above {s : SystemState τ μ} (h : (sys.onNetwork true).model.unbounded.Reachable s) :
    ∃ N, (sys.onNetwork false).model.unbounded.Reachable ⟨s.actors, N⟩ ∧ s.network.Subperm N := by
  induction h with
  | @init s hi => exact ⟨s.network, .init hi, .refl _⟩
  | @step s t a _ _ hstep ih =>
    obtain ⟨N, hreach, hN⟩ := ih
    have hevent := step_unbounded_iff.1 hstep
    cases a with
    | deliver e =>
      obtain ⟨N', hevent', hN'⟩ := hevent.deliver_above hN
      exact ⟨N', .step hreach rfl (step_unbounded_iff.2 hevent'), hN'⟩
    | drop e =>
      cases hevent with
      | drop => exact ⟨N, hreach, (List.erase_subperm _ _).trans hN⟩

/-- On a lossy network any part of what is in flight can be lost. -/
theorem exists_below {a : List τ} {N : Network μ} {M : List (Envelope μ)}
    (h : (sys.onNetwork true).model.unbounded.Reachable ⟨a, N⟩) (hM : M.Subperm N) :
    ∃ N', (sys.onNetwork true).model.unbounded.Reachable ⟨a, N'⟩ ∧ N'.Perm M := by
  obtain ⟨M', hM', hsub⟩ := hM
  obtain ⟨D, hD⟩ := hsub.exists_perm_append
  replace hD : N.Perm (M ++ D) := hD.trans (hM'.append_right D)
  clear hsub
  -- the envelopes beyond `M` are dropped one after another
  induction D generalizing N with
  | nil => exact ⟨N, h, by rwa [List.append_nil] at hD⟩
  | cons e D ih =>
    have he : e ∈ N := hD.mem_iff.2 (List.mem_append_right _ List.mem_cons_self)
    have hdrop : (sys.onNetwork true).model.unbounded.Step ⟨a, N⟩ (.drop e) ⟨a, N.erase e⟩ :=
      step_unbounded_iff.2 (.drop rfl he)
    refine ih (.step h rfl hdrop) ?_
    exact List.Perm.cons_inv ((List.perm_cons_erase he).symm.trans (hD.trans List.perm_middle))

/-- **A lossy network only loses**: what a system can come to with losses is what it can come to without, less any of
the envelopes in flight. With linearly ordered messages this holds of the states, also of those found by the order. -/
theorem outcomes_lossy (sys : ActorSystem τ μ) (a : List τ) :
    (∀ M : Multiset (Envelope μ), (a, M) ∈ sys.outcomes true ↔ ∃ N, (a, N) ∈ sys.outcomes false ∧ M ≤ N) ∧
    ([Std.TransOrd μ] → [Std.LawfulEqOrd μ] →
      (∀ lossy s, (sys.onNetwork lossy).searched.unbounded.Reachable s ↔ (sys.onNetwork lossy).model.unbounded.Reachable s) ∧
      ∀ M : Network μ, (sys.onNetwork true).model.unbounded.Reachable ⟨a, M⟩ ↔ Sorted.IsSorted M ∧
        ∃ N, (sys.onNetwork false).model.unbounded.Reachable ⟨a, N⟩ ∧ M.Subperm N) := by
  constructor
  · intro M
    constructor
    · rintro ⟨s, hs, hx⟩
      obtain ⟨rfl, rfl⟩ := Prod.mk.inj hx
      obtain ⟨N, hN, hsub⟩ := exists_above hs
      exact ⟨_, ⟨⟨s.actors, N⟩, hN, rfl⟩, Multiset.coe_le.2 hsub⟩
    · rintro ⟨N, ⟨s, hs, hx⟩, hle⟩
      obtain ⟨rfl, rfl⟩ := Prod.mk.inj hx
      induction M using Quotient.inductionOn with
      | h M =>
        obtain ⟨N', hN', hperm⟩ := exists_below (reachable_lossy hs) (Multiset.coe_le.1 hle)
        exact ⟨⟨s.actors, N'⟩, hN', Prod.ext rfl (Multiset.coe_eq_coe.2 hperm).symm⟩
  · intro _ _
    refine ⟨fun lossy s => reachable_searched_unbounded_iff (sys.onNetwork lossy), fun M => ?_⟩
    constructor
    · intro h
      exact ⟨isSorted_of_reachable h, exists_above h⟩
    · rintro ⟨hM, N, hN, hsub⟩
      obtain ⟨N', hN', hperm⟩ := exists_below (reachable_lossy hN) hsub
      have heq : N' = M := (isSorted_of_reachable hN').eq_of_perm hM hperm
      rwa [heq] at hN'

/-- Two clocks, with two copies of one envelope in flight and an envelope to nobody. -/
def strayClocks : ActorSystem UInt32 UInt32 :=
  { clocks 2 with initNetwork := [⟨1, 0, 1⟩, ⟨0, 7, 4⟩, ⟨1, 0, 1⟩] }

theorem outcomes_lossy_strayClocks :
    (([0, 0] : List UInt32), (↑([⟨1, 0, 1⟩] : List (Envelope UInt32)) : Multiset (Envelope UInt32))) ∈
      strayClocks.outcomes true ∧
    (strayClocks.onNetwork true).model.unbounded.Reachable ⟨[0, 0], [⟨1, 0, 1⟩]⟩ := by
  have hinit : (strayClocks.onNetwork false).model.unbounded.Reachable ⟨[0, 0], [⟨0, 7, 4⟩, ⟨1, 0, 1⟩, ⟨1, 0, 1⟩]⟩ :=
    .init (by decide +kernel)
  have hsub : ([⟨1, 0, 1⟩] : List (Envelope UInt32)).Subperm [⟨0, 7, 4⟩, ⟨1, 0, 1⟩, ⟨1, 0, 1⟩] := by decide
  obtain ⟨hcontents, hstates⟩ := outcomes_lossy strayClocks [0, 0]
  exact ⟨(hcontents _).2 ⟨_, ⟨_, hinit, rfl⟩, Multiset.coe_le.2 hsub⟩,
    (hstates.2 _).2 ⟨List.pairwise_singleton _ _, _, hinit, hsub⟩⟩

end StateSpace.ActorSystem
