import StateSpace.Proofs.Search.Alarms
import StateSpace.Proofs.Search.Cuts

/-!
# How a search ends is reported truthfully

* `Throws m cfg d p f` : a worker in the phase `p` is about to call code that raises the fault `f`; `after_fault_iff` : a
  run has met a fault if and only if some step of it threw;
* `termination_cases` : what each way to end says of the flags that it is read off;
* `CutShort m cfg moves` : a state within the boundary was visited at a depth at which it is cut;
* `termination_truthful` : what each way to end says of the run.
-/

namespace StateSpace.Search

variable {σ α : Type} {m : Model σ α} {cfg : Config σ} {s s' : Search σ α} {g g' : Chronicle σ}

/-! ## Faults -/

/-- What a worker in the given phase calls next raises a fault: the visitor, the model, or the first condition to be
evaluated that raises one. -/
inductive Throws (m : Model σ α) (cfg : Config σ) (d : Discoveries) : Phase σ α → Fault → Prop
  | visitor {e : Entry σ} {call : Nat} {f : Fault} (h : cfg.visitor call e.state e.fp = .error f) :
    Throws m cfg d (.showing e call) f
  | boundary {e : Entry σ} {f : Fault} (h : m.withinBoundary e.state = .error f) : Throws m cfg d (.opening e) f
  | actions {e : Entry σ} {f : Fault} (hb : m.withinBoundary e.state = .ok true) (hd : ¬ cfg.Cuts e.depth)
      (h : m.actions e.state = .error f) : Throws m cfg d (.opening e) f
  | next {e : Entry σ} {a : α} {todo : List α} {f : Fault} (h : m.next e.state a = .error f) :
    Throws m cfg d (.acting e (a :: todo)) f
  | condition {e child : Entry σ} {todo : List α} {f : Fault} (h : d.FaultsFrom child.state 0 m.properties f) :
    Throws m cfg d (.judging e child todo) f

theorem Raises.throws {d d' : Discoveries} {p : Phase σ α} {f : Fault} (h : Raises m cfg d p f d') : Throws m cfg d p f := by
  cases h with
  | visitor h => exact .visitor h
  | boundary h => exact .boundary h
  | actions hb hd h => exact .actions hb hd h
  | next h => exact .next h
  | condition h => exact .condition (Discoveries.evaluate_fault_iff.1 h)

theorem crash_fault (s : Search σ α) (w : Nat) (f : Fault) : (s.crash w f).fault = s.fault.or (some f) := by
  obtain ⟨r, hr⟩ := crash_eq s w f
  rw [hr]

theorem Throws.step {w : Nat} {f : Fault} (h : Throws m cfg s.discoveries (s.phase w) f) (pick : Nat) :
    (s.step m cfg w pick).fault = s.fault.or (some f) := by
  generalize hp : s.phase w = p at h
  cases h with
  | visitor h =>
    rw [Search.step, hp]
    dsimp only
    rw [present, h]
    exact crash_fault s w f
  | boundary h =>
    rw [Search.step, hp]
    dsimp only
    rw [enumerate, h]
    exact crash_fault s w f
  | actions hb hd h =>
    rw [Search.step, hp]
    dsimp only
    rw [enumerate, hb]
    dsimp only
    rw [if_neg (by simpa [Config.Cuts] using hd), h]
    exact crash_fault s w f
  | next h =>
    rw [Search.step, hp]
    dsimp only
    rw [act, h]
    exact crash_fault s w f
  | condition h =>
    rw [Search.step, hp]
    dsimp only [judge]
    rw [Discoveries.evaluate_fault_iff.2 h]
    exact crash_fault _ w f

/-- Whatever leaves the first fault is a step of a worker, and throws. -/
theorem Transition.throws {who : Option Nat} (ht : Transition m cfg who s g s' g') (hs : s.fault = none)
    (hs' : s'.fault ≠ none) : ∃ w f, who = some w ∧ Throws m cfg s.discoveries (s.phase w) f := by
  cases ht with
  | @crash w _ _ _ _ _ f _ hw _ hf =>
    refine ⟨w, f, rfl, ?_⟩
    rw [phase_eq hw]
    exact hf.throws
  | _ => exact absurd hs hs'

theorem Transition.fault_ne {who : Option Nat} (ht : Transition m cfg who s g s' g') (hs : s.fault ≠ none) :
    s'.fault ≠ none := by
  cases ht with
  | crash => simp
  | _ => exact hs

theorem Reached.fault_ne (h : Reached m cfg s g) (hs : s.fault ≠ none) (moves : List Move) :
    (s.play m cfg moves).fault ≠ none := by
  induction moves generalizing s g with
  | nil => exact hs
  | cons mv moves ih =>
    obtain ⟨who, g', ht⟩ := move_transition m cfg s g mv h.sound h.workers
    exact ih (h.next ht) (ht.fault_ne hs)

theorem seed_fault (hseed : (seed m cfg).1 = .ok ()) : (seed m cfg).2.fault = none :=
  seed_keeps Search.fault (fun _ _ _ _ _ _ => rfl) hseed

def Threw (m : Model σ α) (cfg : Config σ) (moves : List Move) : Prop :=
  ∃ before w pick rest f, moves = before ++ .work w pick :: rest ∧
    Throws m cfg (after m cfg before).discoveries ((after m cfg before).phase w) f

/-- **A run has met a fault if and only if some step of it threw.** -/
theorem after_fault_iff (hseed : (seed m cfg).1 = .ok ()) (moves : List Move) :
    (after m cfg moves).fault ≠ none ↔ Threw m cfg moves := by
  constructor
  · induction moves using List.reverseRecOn with
    | nil => exact fun h => absurd (seed_fault hseed) h
    | append_singleton moves mv ih =>
      intro h
      by_cases hbefore : (after m cfg moves).fault = none
      · obtain ⟨g, hr, -⟩ := after_reached hseed moves
        rw [after_concat] at h
        cases mv with
        | cancel =>
          obtain ⟨w, f, hw, -⟩ := (cancel_transition m cfg (after m cfg moves) g).throws hbefore h
          cases hw
        | work w pick =>
          obtain ⟨g', ht⟩ := step_transition m cfg (after m cfg moves) g w pick hr.sound hr.workers
          obtain ⟨w', f, hw, hf⟩ := ht.throws hbefore h
          cases hw
          exact ⟨moves, w, pick, [], f, rfl, hf⟩
      · obtain ⟨before, w, pick, rest, f, rfl, hf⟩ := ih hbefore
        exact ⟨before, w, pick, rest ++ [mv], f, by rw [List.append_assoc, List.cons_append], hf⟩
  · rintro ⟨before, w, pick, rest, f, rfl, hf⟩
    obtain ⟨g, hr, -⟩ := after_reached hseed (before ++ [.work w pick])
    rw [List.append_cons, after_append]
    refine hr.fault_ne ?_ rest
    rw [after_concat]
    show (Search.step m cfg w pick (after m cfg before)).fault ≠ none
    rw [hf.step pick]
    simp

/-! ## Endings -/

/-- The ways for a search to end, with the flags that they are read off. -/
theorem termination_cases (hdone : s.done = true) :
    s.termination = .error ∧ s.fault ≠ none ∨
    s.termination = .stopped ∧ s.fault = none ∧ s.stopReason = some .stopped ∨
    s.termination = .exhausted ∧ s.fault = none ∧ s.exhausted = true ∨
    s.termination = .boundReached ∧ s.fault = none ∧ s.stopReason ≠ some .stopped ∧ s.exhausted = false := by
  unfold termination
  rw [hdone]
  cases hf : s.fault with
  | some f => exact Or.inl ⟨rfl, by simp⟩
  | none =>
    right
    by_cases hr : s.stopReason = some .stopped
    · exact Or.inl ⟨by simp [hr], rfl, hr⟩
    · right
      cases he : s.exhausted with
      | true => exact Or.inl ⟨by simp [hr], rfl, rfl⟩
      | false => exact Or.inr ⟨by simp [hr], rfl, hr, rfl⟩

/-- A state within the boundary was visited that had been discovered at a depth at which it is cut. -/
def CutShort (m : Model σ α) (cfg : Config σ) (moves : List Move) : Prop :=
  ∃ t fp depth, (t, fp) ∈ (after m cfg moves).visits ∧ m.withinBoundary t = .ok true ∧
    DiscoveredAt m cfg moves fp depth ∧ cfg.Cuts depth

theorem Reached.expanded_eq (h : Reached m cfg s g) (hdone : s.done = true) (hpending : s.frontier.pending = 0) :
    s.visits.Perm (g.ledger.map fun l => (l.entry.state, l.entry.fp)) ∧ s.expanded = s.generated := by
  obtain ⟨hperm, hlost, -⟩ := h.completed hdone hpending
  have hvisits := h.tally.visits hlost
  rw [flatMap_of_done hdone _ rfl, List.nil_append] at hvisits
  have hall := hvisits.trans (hperm.symm.map fun e => (e.state, e.fp))
  rw [List.map_map] at hall
  refine ⟨hall, ?_⟩
  rw [h.tally.expanded, hall.length_eq, List.length_map, h.size_eq]

/-- A search that ended at a bound, and not because of a fault, has registered enough states or was cut short. -/
theorem bound_of_end (hseed : (seed m cfg).1 = .ok ()) {moves : List Move} (hw : Warranted m cfg (after m cfg moves))
    (hdone : (after m cfg moves).done = true) (hfault : (after m cfg moves).fault = none)
    (hreason : (after m cfg moves).stopReason ≠ some .stopped) (hexhausted : (after m cfg moves).exhausted = false) :
    0 < cfg.maxStates ∧ cfg.maxStates ≤ (after m cfg moves).generated ∨ CutShort m cfg moves := by
  obtain ⟨g, hr, hdisc⟩ := after_discoveredAt hseed moves
  cases hstop : (after m cfg moves).stopReason with
  | some r =>
    cases r with
    | boundReached => exact Or.inl (hw.reason _ hstop)
    | stopped => exact absurd hstop hreason
    | error => exact absurd hfault (hw.reason _ hstop)
  | none =>
    right
    have hlimited : (after m cfg moves).depthLimited = true := by
      by_contra hno
      rw [exhausted_iff.2 ⟨hdone, hr.pending_of_done hstop hdone, Bool.not_eq_true _ ▸ hno⟩] at hexhausted
      cases hexhausted
    obtain ⟨l, hl, hvisit, hb, hcut⟩ := hr.cutting.limited hlimited
    exact ⟨l.entry.state, l.entry.fp, l.entry.depth, hvisit, hb, hdisc l hl, hcut⟩

theorem not_cutShort (hseed : (seed m cfg).1 = .ok ()) {moves : List Move} (he : (after m cfg moves).exhausted = true) :
    ¬ CutShort m cfg moves := by
  obtain ⟨g, hr, hdisc⟩ := after_discoveredAt hseed moves
  obtain ⟨hdone, hpending, hlimited⟩ := exhausted_iff.1 he
  rintro ⟨t, fp, depth, hvisit, hb, hdepth, hcut⟩
  obtain ⟨l, hl, hentry⟩ := List.mem_map.1 ((hr.expanded_eq hdone hpending).1.mem_iff.1 hvisit)
  obtain ⟨rfl, rfl⟩ := Prod.mk.inj hentry
  obtain rfl := hdepth.unique hseed (hdisc l hl)
  have hcompleted := (hr.completed hdone hpending).1.mem_iff.1 (List.mem_map_of_mem hl)
  rw [hr.cutting.completed l.entry hcompleted hb hcut] at hlimited
  cases hlimited

/-- What the ways for a search to end say of its run. -/
structure Truthful (m : Model σ α) (cfg : Config σ) (moves : List Move) : Prop where
  ended : (after m cfg moves).termination ≠ .running
  error : (after m cfg moves).termination = .error ↔ Threw m cfg moves
  stopped : (after m cfg moves).termination = .stopped →
    cfg.stopOnViolation = true ∧ Violated m (after m cfg moves) ∨ Resolved m (after m cfg moves)
  bounded : (after m cfg moves).termination = .boundReached →
    0 < cfg.maxStates ∧ cfg.maxStates ≤ (after m cfg moves).generated ∨ CutShort m cfg moves
  exhausted : (after m cfg moves).termination = .exhausted →
    (after m cfg moves).expanded = (after m cfg moves).generated ∧ ¬ CutShort m cfg moves
  silent : (after m cfg moves).termination = .exhausted → ∀ a : Alarm, ¬ a.Sounds m cfg (after m cfg moves)

/-- **How a search ends is reported truthfully**, for any number of workers and any run that was not cancelled. An
exhausted search is also one that nothing should have stopped. -/
theorem termination_truthful (m : Model σ α) (cfg : Config σ) (hseed : (seed m cfg).1 = .ok ()) (moves : List Move)
    (hm : ∀ mv ∈ moves, mv ≠ .cancel) (hdone : (after m cfg moves).done = true) : Truthful m cfg moves := by
  obtain ⟨g, hr, -⟩ := after_reached hseed moves
  have hw := after_warranted hseed hm
  have hfault := after_fault_iff hseed moves
  rcases termination_cases hdone with ⟨ht, hf⟩ | ⟨ht, hf, hreason⟩ | ⟨ht, hf, he⟩ | ⟨ht, hf, hreason, he⟩
  · refine ⟨by simp [ht], ?_, by simp [ht], by simp [ht], by simp [ht], by simp [ht]⟩
    exact ⟨fun _ => hfault.1 hf, fun _ => ht⟩
  · refine ⟨by simp [ht], by simp [ht, ← hfault, hf], fun _ => ?_, by simp [ht], by simp [ht], by simp [ht]⟩
    exact hw.reason _ hreason
  · obtain ⟨-, hpending, -⟩ := exhausted_iff.1 he
    refine ⟨by simp [ht], by simp [ht, ← hfault, hf], by simp [ht], by simp [ht], fun _ => ?_, fun _ => ?_⟩
    · exact ⟨(hr.expanded_eq hdone hpending).2, not_cutShort hseed he⟩
    · exact hr.silent (after_heeded hseed hm) (after_unspent hseed hm) he hf
  · refine ⟨by simp [ht], by simp [ht, ← hfault, hf], by simp [ht], fun _ => ?_, by simp [ht], by simp [ht]⟩
    exact bound_of_end hseed hw hdone hf hreason he

/-- A single worker meets the fault of the snag, after it has found the violation. -/
theorem termination_truthful_snag :
    (after snag.model broad (List.replicate 40 (.work 0 0))).done = true ∧
    (after snag.model broad (List.replicate 40 (.work 0 0))).termination = .error ∧
    Threw snag.model broad (List.replicate 40 (.work 0 0)) := by
  have hdone : (after snag.model broad (List.replicate 40 (.work 0 0))).done = true := by decide +kernel
  have herror : (after snag.model broad (List.replicate 40 (.work 0 0))).termination = .error := by decide +kernel
  have hm : ∀ mv ∈ List.replicate 40 (Move.work 0 0), mv ≠ .cancel := by decide
  exact ⟨hdone, herror, (termination_truthful _ _ (by decide +kernel) _ hm hdone).error.1 herror⟩

end StateSpace.Search
