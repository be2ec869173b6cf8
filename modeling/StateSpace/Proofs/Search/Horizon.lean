import StateSpace.Proofs.Search.Depths

/-!
# The horizon of a search

A search that does not expand states of some depth never sees what is farther away, so nothing has to be assumed of it.

* `Model.curtailed m bound` : the model without the steps that lead to the bound or beyond; `atDistance_curtailed` : the
  distances below it are the same; `reachable_curtailed` : there are no others;
* `reconstruct_curtailed` : what is rebuilt along its steps is rebuilt along those of the model;
* `check_curtailed` : a single worker does not notice the difference.
-/

namespace StateSpace

variable {σ α : Type} {m : Model σ α}

/-! ## Curtailed models -/

namespace Model

theorem runLengths_succ {s t : σ} {a : α} {n : Nat} (hn : n ∈ m.runLengths s) (hb : m.withinBoundary s = .ok true)
    (hstep : m.Step s a t) : n + 1 ∈ m.runLengths t := by
  obtain ⟨p, hp, rfl, rfl⟩ := hn
  exact ⟨p.push a t, hp.push hb hstep, Path.last_push p a t, by simp [Path.push]⟩

theorem Reachable.runLength {t : σ} (h : m.Reachable t) : ∃ n, n ∈ m.runLengths t := by
  induction h with
  | init hi => exact ⟨0, .single _, Path.isRun_single hi, rfl, rfl⟩
  | step _ hb hstep ih =>
    obtain ⟨n, hn⟩ := ih
    exact ⟨n + 1, runLengths_succ hn hb hstep⟩

theorem exists_atDistance {t : σ} {n : Nat} (hn : n ∈ m.runLengths t) : ∃ d ≤ n, m.AtDistance t d := by
  classical
  exact ⟨_, Nat.find_min' ⟨n, hn⟩ hn, Nat.find_spec ⟨n, hn⟩, fun k hk => Nat.find_min' _ hk⟩

/-- Some run to the state is so short that what follows is below the bound. -/
def Inside (m : Model σ α) (bound : Nat) (s : σ) : Prop := ∃ n ∈ m.runLengths s, n + 1 < bound

open Classical in
/-- The model without the steps that lead to states at the bound or beyond. -/
noncomputable def curtailed (m : Model σ α) (bound : Nat) : Model σ α :=
  { m with actions := fun s => if m.Inside bound s then m.actions s else .ok [] }

variable {bound : Nat}

theorem fingerprint_curtailed (m : Model σ α) (bound : Nat) : (m.curtailed bound).fingerprint = m.fingerprint := rfl

theorem actions_curtailed {s : σ} (h : m.Inside bound s) : (m.curtailed bound).actions s = m.actions s := if_pos h

theorem actions_of_curtailed {s : σ} {as : List α} {a : α} (h : (m.curtailed bound).actions s = .ok as) (ha : a ∈ as) :
    m.Inside bound s ∧ m.actions s = .ok as := by
  by_cases hs : m.Inside bound s
  · rw [actions_curtailed hs] at h
    exact ⟨hs, h⟩
  · have hnone : (m.curtailed bound).actions s = .ok [] := if_neg hs
    rw [hnone] at h
    cases h
    cases ha

theorem step_curtailed {s t : σ} {a : α} :
    (m.curtailed bound).Step s a t ↔ m.Inside bound s ∧ m.Step s a t := by
  constructor
  · rintro ⟨⟨as, has, ha⟩, ht⟩
    obtain ⟨hs, has⟩ := actions_of_curtailed has ha
    exact ⟨hs, ⟨as, has, ha⟩, ht⟩
  · rintro ⟨hs, ⟨as, has, ha⟩, ht⟩
    exact ⟨⟨as, (actions_curtailed hs).trans has, ha⟩, ht⟩

theorem Selects.of_curtailed {s t : σ} {fp : Fingerprint} {a : α} (h : (m.curtailed bound).Selects s fp a t) :
    m.Selects s fp a t := by
  obtain ⟨before, after, has, hbefore, ht, hfp⟩ := h
  have hmem : a ∈ before ++ a :: after := List.mem_append_right _ List.mem_cons_self
  exact ⟨before, after, (actions_of_curtailed has hmem).2, hbefore, ht, hfp⟩

end Model

namespace Path

variable {bound : Nat}

theorem Along.of_curtailed {s : σ} {steps : List (α × σ)} (h : Along (m.curtailed bound) s steps) : Along m s steps := by
  induction steps generalizing s with
  | nil => trivial
  | cons x steps ih => exact ⟨h.1, (Model.step_curtailed.1 h.2.1).2, ih h.2.2⟩

theorem IsRun.of_curtailed {p : Path σ α} (h : p.IsRun (m.curtailed bound)) : p.IsRun m :=
  ⟨h.init_mem, h.along.of_curtailed⟩

/-- Steps that do not get to the bound are kept. -/
theorem Along.curtailed {s : σ} {steps : List (α × σ)} (h : Along m s steps) {n : Nat} (hn : n ∈ m.runLengths s)
    (hlt : n + steps.length < bound) : Along (m.curtailed bound) s steps := by
  induction steps generalizing s n with
  | nil => trivial
  | cons x steps ih =>
    rw [List.length_cons] at hlt
    have hs : m.Inside bound s := ⟨n, hn, by omega⟩
    exact ⟨h.1, Model.step_curtailed.2 ⟨hs, h.2.1⟩, ih h.2.2 (Model.runLengths_succ hn h.1 h.2.1) (by omega)⟩

theorem Chosen.of_curtailed {s : σ} {steps : List (α × σ)} (h : Chosen (m.curtailed bound) s steps) :
    Chosen m s steps := by
  induction steps generalizing s with
  | nil => trivial
  | cons x steps ih => exact ⟨h.1.of_curtailed, ih h.2⟩

/-- **What is rebuilt** along the steps of the curtailed model is rebuilt along those of the model. -/
theorem reconstruct_curtailed {links : Predecessors} {fp : Fingerprint} {p : Path σ α}
    (h : reconstruct (m.curtailed bound) links fp = .ok p) : reconstruct m links fp = .ok p := by
  unfold reconstruct at h ⊢
  obtain ⟨fps, hfps, h⟩ := exists_of_bind_eq_ok h
  rw [hfps, ok_bind]
  have hreplay : replay (m.curtailed bound) fps = .ok (some p) := by
    unfold ofFingerprints at h
    cases hr : replay (m.curtailed bound) fps with
    | error f =>
      rw [hr] at h
      cases h
    | ok found =>
      rw [hr] at h
      cases found with
      | none => cases h
      | some q =>
        cases h
        rfl
  obtain ⟨⟨hinit, hsteps⟩, hp⟩ := replay_eq_some_iff.1 hreplay
  have hreplay' : replay m fps = .ok (some p) := replay_eq_some_iff.2 ⟨⟨hinit, hsteps.of_curtailed⟩, hp⟩
  rw [ofFingerprints, hreplay']

end Path

namespace Model

variable {bound : Nat}

theorem runLengths_of_curtailed {t : σ} {n : Nat} (h : n ∈ (m.curtailed bound).runLengths t) : n ∈ m.runLengths t := by
  obtain ⟨p, hp, hlast, hlen⟩ := h
  exact ⟨p, hp.of_curtailed, hlast, hlen⟩

theorem runLengths_curtailed {t : σ} {n : Nat} (h : n ∈ m.runLengths t) (hn : n < bound) :
    n ∈ (m.curtailed bound).runLengths t := by
  obtain ⟨p, hp, hlast, rfl⟩ := h
  have hzero : 0 ∈ m.runLengths p.init := ⟨.single p.init, Path.isRun_single hp.init_mem, rfl, rfl⟩
  exact ⟨p, ⟨hp.init_mem, hp.along.curtailed hzero (by omega)⟩, hlast, rfl⟩

/-- Distances below the bound are the same. -/
theorem atDistance_curtailed {t : σ} {d : Nat} (hd : d < bound) :
    (m.curtailed bound).AtDistance t d ↔ m.AtDistance t d := by
  constructor
  · rintro ⟨hrun, hleast⟩
    refine ⟨runLengths_of_curtailed hrun, fun n hn => ?_⟩
    by_cases hlt : n < bound
    · exact hleast (runLengths_curtailed hn hlt)
    · omega
  · rintro ⟨hrun, hleast⟩
    exact ⟨runLengths_curtailed hrun hd, fun n hn => hleast (runLengths_of_curtailed hn)⟩

theorem reachable_curtailed (hpos : 0 < bound) {t : σ} (h : (m.curtailed bound).Reachable t) :
    ∃ d < bound, m.AtDistance t d := by
  have hshort : ∃ n ∈ m.runLengths t, n < bound := by
    cases h with
    | init hi => exact ⟨0, ⟨.single t, Path.isRun_single hi, rfl, rfl⟩, hpos⟩
    | step _ hb hstep =>
      obtain ⟨⟨n, hn, hlt⟩, hstep⟩ := step_curtailed.1 hstep
      exact ⟨n + 1, runLengths_succ hn hb hstep, hlt⟩
  obtain ⟨n, hn, hlt⟩ := hshort
  obtain ⟨d, hle, hd⟩ := exists_atDistance hn
  exact ⟨d, by omega, hd⟩

theorem Total.curtailed (hm : m.Total) (hpos : 0 < bound) : (m.curtailed bound).Total := by
  have hreach : ∀ t, (m.curtailed bound).Reachable t → m.Reachable t := by
    intro t ht
    obtain ⟨d, -, hd⟩ := reachable_curtailed hpos ht
    exact hd.reachable
  refine ⟨fun t ht => hm.boundary t (hreach t ht), fun t ht => ?_, fun t as a ht has ha => ?_,
    fun t ht => hm.conditions t (hreach t ht)⟩
  · by_cases hs : m.Inside bound t
    · rw [actions_curtailed hs]
      exact hm.actions t (hreach t ht)
    · exact ⟨[], if_neg hs⟩
  · exact hm.next t as a (hreach t ht) (actions_of_curtailed has ha).2 ha

end Model

/-! ## Searching within the horizon -/

namespace Search

variable {cfg : Config σ} {s : Search σ α} {g : Chronicle σ}

theorem Grown.runLength {L : List (Link σ)} (h : Grown m L) {l : Link σ} (hl : l ∈ L) :
    ∃ n ∈ m.runLengths l.entry.state, l.entry.depth = n + 1 := by
  induction h generalizing l with
  | nil => cases hl
  | @root L t _ hi _ ih =>
    rcases List.mem_cons.1 hl with rfl | hl
    · exact ⟨0, ⟨.single t, Path.isRun_single hi, rfl, rfl⟩, rfl⟩
    · exact ih hl
  | @child L k before after a t _ hk hb ha _ ht _ ih =>
    rcases List.mem_cons.1 hl with rfl | hl
    · obtain ⟨n, hn, hdepth⟩ := ih hk
      have hstep : m.Step k.entry.state a t := ⟨⟨_, ha, List.mem_append_right _ List.mem_cons_self⟩, ht⟩
      exact ⟨n + 1, Model.runLengths_succ hn hb hstep, congrArg (· + 1) hdepth⟩
    · exact ih hl

section

variable (m cfg) (bound : Nat)

theorem plant_curtailed (root : Entry σ) (s : Search σ α) :
    s.plant (m.curtailed bound) cfg root = s.plant m cfg root := rfl

theorem seedFrom_curtailed (rest : List σ) (s : Search σ α) :
    seedFrom (m.curtailed bound) cfg rest s = seedFrom m cfg rest s := by
  induction rest generalizing s with
  | nil => rfl
  | cons t rest ih =>
    have hrest : seedFrom (m.curtailed bound) cfg rest = seedFrom m cfg rest := funext ih
    rw [seedFrom, seedFrom, hrest, m.fingerprint_curtailed, plant_curtailed]

theorem seed_curtailed : seed (m.curtailed bound) cfg = seed m cfg := by
  have hinit : (m.curtailed bound).initStates = m.initStates := rfl
  have hblank : blank (m.curtailed bound) cfg = blank m cfg := rfl
  rw [seed, seed, hinit, hblank, seedFrom_curtailed]

end

theorem enumerate_curtailed (hr : Reached m cfg s g) (hpos : 0 < cfg.maxDepth) {w : Nat} {e : Entry σ}
    (hw : s.workers[w]? = some (.opening e)) :
    s.enumerate (m.curtailed cfg.maxDepth) cfg w e = s.enumerate m cfg w e := by
  obtain ⟨l, hl, rfl⟩ := hr.custody.mem_ledger hw List.mem_cons_self
  obtain ⟨n, hn, hdepth⟩ := hr.grown.runLength hl
  have hboundary : (m.curtailed cfg.maxDepth).withinBoundary = m.withinBoundary := rfl
  rw [enumerate, enumerate, hboundary]
  by_cases hcut : cfg.maxDepth ≤ l.entry.depth
  · have hcut' : (cfg.maxDepth > 0 && l.entry.depth ≥ cfg.maxDepth) = true := by simp [hpos, hcut]
    rw [if_pos hcut', if_pos hcut']
  · rw [Model.actions_curtailed ⟨n, hn, by omega⟩]

theorem step_curtailed (hr : Reached m cfg s g) (hpos : 0 < cfg.maxDepth) (w pick : Nat) :
    s.step (m.curtailed cfg.maxDepth) cfg w pick = s.step m cfg w pick := by
  cases hw : s.workers[w]? with
  | none =>
    have hphase : s.phase w = .finished := by rw [phase, hw]; rfl
    rw [step, step, hphase]
  | some p =>
    rw [step, step, phase_eq hw]
    cases p with
    | opening e => exact enumerate_curtailed hr hpos hw
    | acting e todo =>
      cases todo with
      | nil => rfl
      | cons a todo =>
        show s.act (m.curtailed cfg.maxDepth) w e a todo = s.act m w e a todo
        unfold act
        rw [m.fingerprint_curtailed]
        rfl
    | _ => rfl

theorem after_curtailed (hseed : (seed m cfg).1 = .ok ()) (hpos : 0 < cfg.maxDepth) (moves : List Move) :
    after (m.curtailed cfg.maxDepth) cfg moves = after m cfg moves := by
  have hplay : ∀ s g, Reached m cfg s g → s.play (m.curtailed cfg.maxDepth) cfg moves = s.play m cfg moves := by
    induction moves with
    | nil => exact fun s g _ => rfl
    | cons mv moves ih =>
      intro s g hr
      have hmove : s.move (m.curtailed cfg.maxDepth) cfg mv = s.move m cfg mv := by
        cases mv with
        | work w pick => exact step_curtailed hr hpos w pick
        | cancel => rfl
      obtain ⟨g', hr', -⟩ := hr.move mv
      show (s.move (m.curtailed cfg.maxDepth) cfg mv).play (m.curtailed cfg.maxDepth) cfg moves = _
      rw [hmove]
      exact ih _ g' hr'
  obtain ⟨g, hs⟩ := seed_seeded hseed
  rw [after, after, seed_curtailed]
  exact hplay _ g hs.reached

/-- **A single worker does not notice** that the model is curtailed where it does not expand states. -/
theorem check_curtailed (hseed : (seed m cfg).1 = .ok ()) (h1 : cfg.workers ≤ 1) (hpos : 0 < cfg.maxDepth) :
    check (m.curtailed cfg.maxDepth) cfg = check m cfg := by
  obtain ⟨s, n, hcheck, -, hplay⟩ := check_solo h1 hseed
  obtain ⟨s', n', hcheck', -, hplay'⟩ := check_solo (m := m.curtailed cfg.maxDepth) h1 (by rwa [seed_curtailed])
  have hmoves : ∀ mv ∈ List.replicate (n + n') (Move.work 0 0), ∃ pick, mv = .work 0 pick :=
    fun mv hmv => ⟨0, List.eq_of_mem_replicate hmv⟩
  have hs := hplay _ hmoves (by rw [List.length_replicate]; omega)
  have hs' := hplay' _ hmoves (by rw [List.length_replicate]; omega)
  rw [hcheck, hcheck', ← hs, ← hs', after_curtailed hseed hpos]

end Search

end StateSpace
