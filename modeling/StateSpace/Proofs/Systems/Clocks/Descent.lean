import Mathlib.Data.List.Forall2
import StateSpace.Proofs.Actor.Steps
import StateSpace.Proofs.Lists
import StateSpace.Systems.Clocks

/-!
# Clocks run down

Timestamps are words. A clock answers every newer timestamp with the one after it, and the timestamp after the greatest is
`0`, which every clock declines.

* `HasClocks sys n` : the actors of the system are `n` clocks, on whatever network;
* `event_iff` : what can happen in such a system;
* `slack s` : how far the clocks are from the greatest timestamp, plus the envelopes in flight;
* `Winds s a t` : what one step does to clocks, network and slack (`Event.winds`);
* `slack_along` : a run pays for each step with slack;
* `clocks_run_down` : so every run ends.
-/

namespace StateSpace.ActorSystem

variable {sys : ActorSystem UInt32 UInt32} {s t : SystemState UInt32 UInt32} {a : NetAction UInt32} {n : Nat}

def HasClocks (sys : ActorSystem UInt32 UInt32) (n : Nat) : Prop := sys.actors = List.replicate n clock

/-- How far clocks are from the greatest timestamp, in all. -/
def shortfall (clocks : List UInt32) : Nat := (clocks.map fun c => 2 ^ 32 - 1 - c.toNat).sum

/-- How far the clocks are from the greatest timestamp, plus the number of envelopes in flight. -/
def slack (s : SystemState UInt32 UInt32) : Nat := shortfall s.actors + s.network.length

/-! ## One step -/

theorem advance_clock {c msg : UInt32} {src : ActorId} {r : Reaction UInt32 UInt32} :
    clock.advance c src msg = .ok (some r) ↔ c < msg ∧ r = ⟨msg, [⟨src, msg + 1⟩]⟩ := by
  unfold clock
  by_cases h : msg ≤ c
  · simp [h, UInt32.not_lt.2 h]
  · simp [h, UInt32.not_le.1 h, eq_comm]

/-- **What can happen among clocks**: a newer timestamp is adopted and answered, or an envelope is dropped. -/
theorem event_iff (hsys : sys.HasClocks n) : Event sys s a t ↔
    (∃ e c, a = .deliver e ∧ e ∈ s.network ∧ e.dst < n ∧ s.actors[e.dst]? = some c ∧ c < e.msg ∧
      t = ⟨s.actors.set e.dst e.msg, Network.post (Network.remove s.network e) e.dst [⟨e.src, e.msg + 1⟩]⟩) ∨
    ∃ e, a = .drop e ∧ e ∈ s.network ∧ sys.lossy = true ∧ t = ⟨s.actors, Network.remove s.network e⟩ := by
  have hactor : ∀ {i : Nat} {actor : Actor UInt32 UInt32}, sys.actors[i]? = some actor ↔ i < n ∧ actor = clock := by
    intro i actor
    rw [hsys, List.getElem?_replicate]
    by_cases hi : i < n
    · simp [hi, eq_comm]
    · simp [hi]
  constructor
  · intro h
    cases h with
    | deliver he ha hs hr =>
      obtain ⟨hlt, rfl⟩ := hactor.1 ha
      obtain ⟨hnewer, rfl⟩ := advance_clock.1 hr
      exact Or.inl ⟨_, _, rfl, he, hlt, hs, hnewer, rfl⟩
    | drop hl he => exact Or.inr ⟨_, rfl, he, hl, rfl⟩
  · rintro (⟨e, c, rfl, he, hlt, hs, hnewer, rfl⟩ | ⟨e, rfl, he, hl, rfl⟩)
    · exact .deliver (r := ⟨e.msg, [⟨e.src, e.msg + 1⟩]⟩) he (hactor.2 ⟨hlt, rfl⟩) hs (advance_clock.2 ⟨hnewer, rfl⟩)
    · exact .drop hl he

/-- What a step does among clocks: no clock goes back and slack is lost; a delivery raises the receiver's clock and no
other, and its answer, with the timestamp after, takes the place of the envelope; a drop leaves the clocks alone. -/
structure Winds (s : SystemState UInt32 UInt32) (a : NetAction UInt32) (t : SystemState UInt32 UInt32) : Prop where
  slack_lt : slack t < slack s
  forward : List.Forall₂ (· ≤ ·) s.actors t.actors
  delivers : ∀ e, a = .deliver e →
    (∃ c, s.actors[e.dst]? = some c ∧ c < e.msg ∧ t.actors = s.actors.set e.dst e.msg) ∧
    t.network.Perm (⟨e.dst, e.src, e.msg + 1⟩ :: s.network.erase e) ∧ t.network.length = s.network.length
  drops : ∀ e, a = .drop e → t.actors = s.actors ∧ t.network = s.network.erase e ∧
    t.network.length + 1 = s.network.length

theorem length_erase {e : Envelope UInt32} (he : e ∈ s.network) : (s.network.erase e).length + 1 = s.network.length :=
  (Network.remove_perm he).length_eq.symm

theorem forall₂_set {cs : List UInt32} {i : Nat} {c msg : UInt32} (hc : cs[i]? = some c) (hle : c ≤ msg) :
    List.Forall₂ (· ≤ ·) cs (cs.set i msg) := by
  rw [List.forall₂_iff_get]
  refine ⟨List.length_set.symm, fun j hj hj' => ?_⟩
  simp only [List.get_eq_getElem, List.getElem_set]
  split
  · rename_i hij
    subst hij
    rw [List.getElem?_eq_getElem hj] at hc
    rwa [Option.some.inj hc]
  · exact UInt32.le_refl _

theorem shortfall_set {cs : List UInt32} {i : Nat} {c msg : UInt32} (hc : cs[i]? = some c) (hlt : c < msg) :
    shortfall (cs.set i msg) < shortfall cs := by
  have hsum := sum_map_set (fun c : UInt32 => 2 ^ 32 - 1 - c.toNat) hc msg
  have hlt' := UInt32.lt_iff_toNat_lt.1 hlt
  have hmax := msg.toNat_lt
  unfold shortfall
  omega

theorem Event.winds (hsys : sys.HasClocks n) (h : Event sys s a t) : Winds s a t := by
  rcases (event_iff hsys).1 h with ⟨e, c, rfl, he, -, hc, hnewer, rfl⟩ | ⟨e, rfl, he, -, rfl⟩
  · have hperm : (Network.post (Network.remove s.network e) e.dst [⟨e.src, e.msg + 1⟩]).Perm
        (⟨e.dst, e.src, e.msg + 1⟩ :: s.network.erase e) := Network.post_perm _ _ _
    have hlen : (Network.post (Network.remove s.network e) e.dst [⟨e.src, e.msg + 1⟩]).length = s.network.length := by
      rw [hperm.length_eq, List.length_cons, length_erase he]
    refine ⟨?_, forall₂_set hc (UInt32.le_of_lt hnewer), ?_, by simp⟩
    · have hshort := shortfall_set hc hnewer
      unfold slack
      dsimp only
      omega
    · intro e' he'
      cases he'
      exact ⟨⟨c, hc, hnewer, rfl⟩, hperm, hlen⟩
  · have hlen : (Network.remove s.network e).length + 1 = s.network.length := length_erase he
    refine ⟨?_, List.forall₂_refl _, by simp, ?_⟩
    · unfold slack
      dsimp only
      omega
    · intro e' he'
      cases he'
      exact ⟨rfl, rfl, hlen⟩

/-! ## Whole runs -/

/-- Along the steps of a run, slack pays for each. -/
theorem slack_along (hsys : sys.HasClocks n) {steps : List (NetAction UInt32 × SystemState UInt32 UInt32)}
    (h : Path.Along sys.model.unbounded s steps) : steps.length + slack (⟨s, steps⟩ : Path _ _).last ≤ slack s := by
  induction steps generalizing s with
  | nil => exact Nat.le_of_eq (Nat.zero_add _)
  | cons x steps ih =>
    obtain ⟨a, t⟩ := x
    have hstep := ((step_unbounded_iff.1 h.2.1).winds hsys).slack_lt
    have hrest := ih h.2.2
    rw [Path.last_cons, List.length_cons]
    omega

theorem slack_initial (hsys : sys.HasClocks n) : slack sys.initial = n * (2 ^ 32 - 1) + sys.initNetwork.length := by
  have hactors : sys.initial.actors = List.replicate n 0 := by
    rw [initial, hsys, List.map_replicate]
    rfl
  have hsilent : sys.sentAtStart = [] := by
    rw [sentAtStart, List.flatMap_eq_nil_iff]
    rintro ⟨actor, id⟩ hx
    have hclock : actor ∈ sys.actors := List.fst_mem_of_mem_zipIdx hx
    rw [hsys] at hclock
    rw [List.eq_of_mem_replicate hclock]
    rfl
  have hnet := (initial_perm sys).length_eq
  rw [hsilent, List.append_nil] at hnet
  rw [slack, shortfall, hactors, hnet, List.map_replicate, List.sum_replicate_nat]
  rfl

/-- **Clocks run down**: each step takes from what the clocks are short of the greatest timestamp and from the
envelopes in flight, so that no run goes on for ever, with any boundary or none. -/
theorem clocks_run_down (n : Nat) (sys : ActorSystem UInt32 UInt32) (hsys : sys.HasClocks n) :
    (∀ s a t, sys.model.Step s a t → Winds s a t) ∧
    (∀ p : Path (SystemState UInt32 UInt32) (NetAction UInt32), p.IsRun sys.model.unbounded →
      p.steps.length ≤ n * (2 ^ 32 - 1) + sys.initNetwork.length) ∧
    ¬ ∃ states : Nat → SystemState UInt32 UInt32, ∀ i, ∃ a, sys.model.Step (states i) a (states (i + 1)) := by
  refine ⟨fun s a t h => (step_iff.1 h).winds hsys, fun p hp => ?_, ?_⟩
  · have hinit : p.init = sys.initial := List.mem_singleton.1 hp.init_mem
    have hpaid := slack_along hsys hp.along
    rw [hinit, slack_initial hsys] at hpaid
    omega
  · rintro ⟨states, hstates⟩
    have hfall : ∀ i, i + slack (states i) ≤ slack (states 0) := by
      intro i
      induction i with
      | zero => omega
      | succ i ih =>
        obtain ⟨a, hstep⟩ := hstates i
        have hlt := ((step_iff.1 hstep).winds hsys).slack_lt
        omega
    have hend := hfall (slack (states 0) + 1)
    omega

/-- Two clocks on a lossy network, with the greatest timestamp in flight and an envelope from an actor that does not exist. -/
def lateClocks : ActorSystem UInt32 UInt32 :=
  { clocks 2 with initNetwork := [⟨9, 1, 1⟩, ⟨1, 0, 4294967295⟩], lossy := true }

/-- The greatest timestamp is adopted and answered with `0`, and the answer is dropped. -/
def lateRun : Path (SystemState UInt32 UInt32) (NetAction UInt32) where
  init := ⟨[0, 0], [⟨1, 0, 4294967295⟩, ⟨9, 1, 1⟩]⟩
  steps :=
    [(.deliver ⟨1, 0, 4294967295⟩, ⟨[4294967295, 0], [⟨0, 1, 0⟩, ⟨9, 1, 1⟩]⟩),
      (.drop ⟨0, 1, 0⟩, ⟨[4294967295, 0], [⟨9, 1, 1⟩]⟩)]

theorem isRun_lateRun : lateRun.IsRun lateClocks.model.unbounded where
  init_mem := by decide +kernel
  along := by
    refine ⟨rfl, step_unbounded_iff.2 (.deliver (r := ⟨4294967295, [⟨1, 0⟩]⟩) ?_ rfl rfl rfl), rfl,
      step_unbounded_iff.2 (.drop rfl ?_), trivial⟩
    · decide
    · decide

theorem clocks_run_down_lateRun :
    Winds lateRun.init (.deliver ⟨1, 0, 4294967295⟩) ⟨[4294967295, 0], [⟨0, 1, 0⟩, ⟨9, 1, 1⟩]⟩ ∧
    lateRun.steps.length ≤ 2 * (2 ^ 32 - 1) + 2 := by
  obtain ⟨hwinds, hbound, -⟩ := clocks_run_down 2 lateClocks rfl
  exact ⟨hwinds _ _ _ isRun_lateRun.along.2.1, hbound lateRun isRun_lateRun⟩

end StateSpace.ActorSystem
