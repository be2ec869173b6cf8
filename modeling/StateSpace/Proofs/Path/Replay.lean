import Mathlib.Data.Set.Function
import StateSpace.Proofs.Path
import StateSpace.Proofs.Systems.Graph

/-!
# Which chains are replayed

* `Model.Faultless m` : no step of a run raises a fault, whatever the boundary; `replay_ok` : then a replay comes to an
  answer;
* `Foremost.isRun` : a replay is a run; `replay_eq_none` : a chain that no run has is not replayed;
* `exists_chosen`, `IsRun.replay_eq` : a run is replayed through its own states, if fingerprints tell its neighbours apart;
* `replay_exact` : the three together.
-/

namespace StateSpace

variable {σ α : Type} {m : Model σ α}

/-- Actions can be listed in, and followed from, the states of all runs, within the boundary or not. -/
structure Model.Faultless (m : Model σ α) : Prop where
  actions : ∀ s, m.unbounded.Reachable s → ∃ as, m.actions s = .ok as
  next : ∀ s as a, m.unbounded.Reachable s → m.actions s = .ok as → a ∈ as → ∃ next, m.next s a = .ok next

/-- The action is the first of those enabled in `s` that leads to `t`. -/
def Model.FirstTo (m : Model σ α) (s : σ) (a : α) (t : σ) : Prop :=
  ∃ before after, m.actions s = .ok (before ++ a :: after) ∧ (∀ b ∈ before, m.next s b ≠ .ok (some t)) ∧
    m.next s a = .ok (some t)

theorem Model.Selects.firstTo {s t : σ} {fp : Fingerprint} {a : α} (h : m.Selects s fp a t) : m.FirstTo s a t := by
  obtain ⟨before, after, has, hbefore, ht, hfp⟩ := h
  refine ⟨before, after, has, fun b hb hbt => ?_, ht⟩
  obtain ⟨next, hnext, hmiss⟩ := hbefore b hb
  rw [hbt] at hnext
  exact hmiss t (Except.ok.inj hnext).symm hfp

/-- An enabled action that leads to the fingerprint is selected, or one before it is. -/
theorem Model.Faultless.selects (hm : m.Faultless) {s t : σ} {a : α} (hs : m.unbounded.Reachable s) (h : m.Step s a t) :
    ∃ b u, m.Selects s (m.fingerprint t) b u := by
  obtain ⟨⟨as, has, ha⟩, ht⟩ := h
  obtain ⟨before, after, rfl⟩ := List.append_of_mem ha
  have hbefore : ∀ b ∈ before, ∃ next, m.next s b = .ok next := fun b hb =>
    hm.next s _ b hs has (List.mem_append_left _ hb)
  obtain ⟨b, u, hsel, -⟩ := Path.selectStep_eq_some after hbefore ht rfl
  obtain ⟨front, back, heq, hselects⟩ := Path.selectStep_eq_some_iff.1 hsel
  rw [heq] at has
  exact ⟨b, u, front, back, has, hselects⟩

namespace Path

/-! ## Replays are runs -/

theorem Chosen.along {s : σ} {steps : List (α × σ)} (h : Chosen m s steps) : Along m.unbounded s steps := by
  induction steps generalizing s with
  | nil => trivial
  | cons x steps ih => exact ⟨rfl, Model.step_unbounded.2 h.1.step, ih h.2⟩

theorem Chosen.selects_at {s : σ} {steps : List (α × σ)} (h : Chosen m s steps) {k : Nat} {u t : σ} {a : α}
    (hu : (⟨s, steps⟩ : Path σ α).states[k]? = some u) (ht : steps[k]? = some (a, t)) :
    m.Selects u (m.fingerprint t) a t := by
  induction steps generalizing s k with
  | nil => cases ht
  | cons x steps ih =>
    cases k with
    | zero =>
      cases hu
      cases ht
      exact h.1
    | succ k => exact ih h.2 hu ht

theorem Foremost.init_mem {p : Path σ α} (h : p.Foremost m) : p.init ∈ m.initStates := List.mem_of_find?_eq_some h.init

theorem Foremost.isRun {p : Path σ α} (h : p.Foremost m) : p.IsRun m.unbounded := ⟨h.init_mem, h.steps.along⟩

/-! ## Chains that are no runs -/

theorem follow_ok (hm : m.Faultless) {s : σ} (hs : m.unbounded.Reachable s) (fps : List Fingerprint) :
    ∃ found, follow m s fps = .ok found := by
  induction fps generalizing s with
  | nil => exact ⟨_, rfl⟩
  | cons fp fps ih =>
    obtain ⟨as, has⟩ := hm.actions s hs
    rcases selectStep_cases (fun b hb => hm.next s as b hs has hb) fp [] with ⟨a, t, hsel⟩ | hmiss
    · rw [List.append_nil] at hsel
      obtain ⟨before, after, rfl, hselects⟩ := selectStep_eq_some_iff.1 hsel
      have hstep : m.Step s a t := Model.Selects.step ⟨before, after, has, hselects⟩
      obtain ⟨found, hfound⟩ := ih (hs.step rfl (Model.step_unbounded.2 hstep))
      rw [follow_cons has hsel, hfound]
      exact ⟨_, rfl⟩
    · have hnone := selectStep_append hmiss []
      rw [List.append_nil] at hnone
      refine ⟨none, ?_⟩
      rw [follow, has, ok_bind, hnone]
      rfl

theorem replay_ok (hm : m.Faultless) (fps : List Fingerprint) : ∃ found, replay m fps = .ok found := by
  cases fps with
  | nil => exact ⟨none, rfl⟩
  | cons fp fps =>
    cases hf : m.initStates.find? (m.fingerprint · = fp) with
    | none =>
      rw [replay, hf]
      exact ⟨none, rfl⟩
    | some s =>
      obtain ⟨found, hfound⟩ := follow_ok hm (.init (List.mem_of_find?_eq_some hf)) fps
      rw [replay_cons fps hf, hfound]
      exact ⟨_, rfl⟩

theorem replay_eq_none (hm : m.Faultless) {fps : List Fingerprint}
    (h : ∀ r : Path σ α, r.IsRun m.unbounded → r.fingerprints m ≠ fps) : replay m fps = .ok none := by
  obtain ⟨found, hfound⟩ := replay_ok hm fps
  cases found with
  | none => exact hfound
  | some p =>
    obtain ⟨hp, hfps⟩ := replay_eq_some_iff.1 hfound
    exact absurd hfps (h p hp.isRun)

theorem ofFingerprints_of_replay {fps : List Fingerprint} {found : Option (Path σ α)} (h : replay m fps = .ok found) :
    ofFingerprints m fps = found.elim (.error (.notARun fps.length)) .ok := by
  rw [ofFingerprints, h]
  cases found <;> rfl

/-! ## Runs that are replayed -/

/-- The states of a run are passed by chosen steps, if the successors of each have different fingerprints. -/
theorem exists_chosen (hm : m.Faultless) {s : σ} (hs : m.unbounded.Reachable s) {steps : List (α × σ)}
    (h : Along m.unbounded s steps)
    (hinj : ∀ u ∈ (⟨s, steps⟩ : Path σ α).states, Set.InjOn m.fingerprint {t | ∃ a, m.Step u a t}) :
    ∃ steps', Chosen m s steps' ∧ steps'.map Prod.snd = steps.map Prod.snd := by
  induction steps generalizing s with
  | nil => exact ⟨[], trivial, rfl⟩
  | cons x steps ih =>
    obtain ⟨a, t⟩ := x
    obtain ⟨-, hstep, hrest⟩ := h
    obtain ⟨b, u, hsel⟩ := hm.selects hs (Model.step_unbounded.1 hstep)
    -- another action may be selected, but not one that leads elsewhere
    have hut : u = t :=
      hinj s List.mem_cons_self ⟨b, hsel.step⟩ ⟨a, Model.step_unbounded.1 hstep⟩ hsel.fingerprint_eq
    subst hut
    obtain ⟨steps', hchosen, hstates⟩ := ih (hs.step rfl hstep) hrest fun v hv => hinj v (List.mem_cons_of_mem _ hv)
    exact ⟨(b, u) :: steps', ⟨hsel, hchosen⟩, by rw [List.map_cons, List.map_cons, hstates]⟩

/-- A run is replayed through its own states, if no two initial states and no two successors of one of its states have one
fingerprint. -/
theorem IsRun.replay_eq (hm : m.Faultless) {r : Path σ α} (hr : r.IsRun m.unbounded)
    (hinit : Set.InjOn m.fingerprint {s | s ∈ m.initStates})
    (hinj : ∀ s ∈ r.states, Set.InjOn m.fingerprint {t | ∃ a, m.Step s a t}) :
    ∃ p, replay m (r.fingerprints m) = .ok (some p) ∧ p.states = r.states := by
  obtain ⟨steps, hchosen, hstates⟩ := exists_chosen hm (.init hr.init_mem) hr.along hinj
  have hsame : (⟨r.init, steps⟩ : Path σ α).states = r.states := by
    rw [states, states, hstates]
  have hfind := find?_init hr.init_mem fun t ht hfp => hinit ht hr.init_mem hfp
  refine ⟨⟨r.init, steps⟩, replay_eq_some_iff.2 ⟨⟨hfind, hchosen⟩, ?_⟩, hsame⟩
  rw [fingerprints, hsame, fingerprints]

/-- **Replay is sound, and complete where fingerprints tell neighbours apart.** What is replayed through the states of
a run need not take its actions, but the first that lead there. -/
theorem replay_exact (m : Model σ α) (fps : List Fingerprint) :
    (∀ p, replay m fps = .ok (some p) → p.IsRun m.unbounded ∧ p.fingerprints m = fps) ∧
    (m.Faultless →
      (∀ r : Path σ α, r.IsRun m.unbounded → r.fingerprints m = fps →
        Set.InjOn m.fingerprint {s | s ∈ m.initStates} →
        (∀ s ∈ r.states, Set.InjOn m.fingerprint {t | ∃ a, m.Step s a t}) →
        ∃ p : Path σ α, replay m fps = .ok (some p) ∧ ofFingerprints m fps = .ok p ∧ p.states = r.states ∧
          ∀ (k : Nat) s a t, p.states[k]? = some s → p.steps[k]? = some (a, t) → m.FirstTo s a t) ∧
      (fps = [] ∨ (∀ r : Path σ α, r.IsRun m.unbounded → r.fingerprints m ≠ fps) →
        replay m fps = .ok none ∧ ofFingerprints m fps = .error (.notARun fps.length))) := by
  refine ⟨fun p hp => ?_, fun hm => ⟨fun r hr hfps hinit hinj => ?_, fun hno => ?_⟩⟩
  · obtain ⟨hfore, hfps⟩ := replay_eq_some_iff.1 hp
    exact ⟨hfore.isRun, hfps⟩
  · obtain ⟨p, hp, hstates⟩ := hr.replay_eq hm hinit hinj
    rw [hfps] at hp
    refine ⟨p, hp, ofFingerprints_of_replay hp, hstates, fun k s a t hs ht => ?_⟩
    exact ((replay_eq_some_iff.1 hp).1.steps.selects_at hs ht).firstTo
  · have hnone : replay m fps = .ok none := by
      rcases hno with rfl | hno
      · rfl
      · exact replay_eq_none hm hno
    exact ⟨hnone, ofFingerprints_of_replay hnone⟩

end Path

/-! ## Graphs without faults -/

/-- Neither the list of edges nor an edge raises a fault. -/
def Fan.silent : Fan → Bool
  | .raise _ => false
  | .edges targets => targets.all fun
    | .raise _ => false
    | _ => true

theorem Graph.faultless {g : Graph} (h : g.fans.all Fan.silent = true) : g.model.Faultless := by
  have hfan (s : Nat) : ∃ targets, g.fan s = .edges targets ∧ ∀ message, EdgeTarget.raise message ∉ targets := by
    unfold fan
    cases hs : g.fans[s]? with
    | none => exact ⟨[], rfl, fun message => List.not_mem_nil⟩
    | some f =>
      have hf : f.silent = true := Array.all_eq_true_iff_forall_mem.1 h f (Array.mem_of_getElem? hs)
      cases f with
      | raise message => cases hf
      | edges targets =>
        refine ⟨targets, rfl, fun message hmem => ?_⟩
        cases List.all_eq_true.1 hf _ hmem
  refine ⟨fun s _ => ?_, fun s as a _ _ _ => ?_⟩
  · obtain ⟨targets, hs, -⟩ := hfan s
    exact ⟨(List.range targets.length).map Int.ofNat, by simp only [model, hs]⟩
  · obtain ⟨targets, hs, hno⟩ := hfan s
    show ∃ next, g.follow s a = .ok next
    unfold follow
    rw [hs]
    dsimp only
    split
    · exact ⟨_, rfl⟩
    · split
      · exact ⟨_, rfl⟩
      · exact ⟨_, rfl⟩
      · rename_i message ht
        exact absurd (List.mem_of_getElem? ht) (hno message)
      · exact ⟨_, rfl⟩

namespace Path

/-- Two ways lead from the first state to the third. The first and the last state have one fingerprint, but are never
alternatives. -/
def detours : Graph where
  init := [0, 1]
  fans := #[.edges [.blocked, .state 2, .state 2, .state 3], .edges [], .edges [.state 4, .state 1], .edges [], .edges []]
  hashes := #[7, 1, 2, 3, 7]

def detoursRun : Path Nat Int := ⟨0, [(2, 2), (0, 4)]⟩

theorem isRun_detoursRun : detoursRun.IsRun detours.model.unbounded :=
  ⟨List.mem_cons_self, rfl, ⟨⟨[0, 1, 2, 3], rfl, by decide⟩, rfl⟩, rfl, ⟨⟨[0, 1], rfl, by decide⟩, rfl⟩, trivial⟩

theorem replay_exact_detours : detours.model.fingerprint 0 = detours.model.fingerprint 4 ∧
    (∃ p : Path Nat Int, replay detours.model (detoursRun.fingerprints detours.model) = .ok (some p) ∧
      p.states = [0, 2, 4] ∧ ∀ (k : Nat) s a t, p.states[k]? = some s → p.steps[k]? = some (a, t) →
        detours.model.FirstTo s a t) ∧
    ofFingerprints detours.model [detours.model.fingerprint 2] = .error (.notARun 1) := by
  have hm : detours.model.Faultless := Graph.faultless (by decide +kernel)
  have hinit : Set.InjOn detours.model.fingerprint {s | s ∈ detours.model.initStates} := fun x hx y hy =>
    (by decide +kernel : ∀ x ∈ [0, 1], ∀ y ∈ [0, 1], detours.model.fingerprint x = detours.model.fingerprint y → x = y)
      x hx y hy
  have hnear : ∀ s ∈ detoursRun.states, ∀ x ∈ detours.targets s, ∀ y ∈ detours.targets s,
      detours.model.fingerprint x = detours.model.fingerprint y → x = y := by decide +kernel
  obtain ⟨-, hexact⟩ := replay_exact detours.model (detoursRun.fingerprints detours.model)
  obtain ⟨p, hp, -, hstates, hfirst⟩ := (hexact hm).1 detoursRun isRun_detoursRun rfl hinit fun s hs x hx y hy hxy => by
    obtain ⟨a, ha⟩ := hx
    obtain ⟨b, hb⟩ := hy
    exact hnear s hs x (Graph.mem_targets ha) y (Graph.mem_targets hb) hxy
  refine ⟨by decide +kernel, ⟨p, hp, hstates, hfirst⟩, ?_⟩
  -- no run starts in the third state, or in one that has its fingerprint
  refine (((replay_exact detours.model [detours.model.fingerprint 2]).2 hm).2 (Or.inr fun r hr hfps => ?_)).2
  rw [fingerprints_eq] at hfps
  have hhead := (List.cons.inj hfps).1
  exact (by decide +kernel : ∀ s ∈ [0, 1], detours.model.fingerprint s ≠ detours.model.fingerprint 2) r.init hr.init_mem hhead

end Path

end StateSpace
