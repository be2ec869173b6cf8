import StateSpace.Proofs.Frontier
import StateSpace.Proofs.Hash.Mixing
import StateSpace.Proofs.Registry.Bindings
import StateSpace.Search.Step

/-!
# What a move can do to a search

`Transition m cfg who s g s' g'` says once and for all what the steps of workers, the seeding of an initial state and a
request to stop do. Every invariant of a run is derived from it.

* `Link`, `Chronicle` : a record, kept beside the search for the proofs, of the entries that were registered and of what
  became of them;
* `Phase.held`, `Phase.fresh` : the entry a worker has popped and not completed, and the one it has registered and not
  pushed;
* `Transition` : one constructor for each thing that can happen, with the guards under which it happens;
* `step_transition`, `move_transition`, `plant_transition` : moves and the seeding of initial states are transitions.
-/

namespace StateSpace

/-- A registered entry and the fingerprint it is linked to. -/
structure Link (σ : Type) where
  entry : Entry σ
  parent : Fingerprint

/-- What happened to the registered entries so far. -/
structure Chronicle (σ : Type) where
  /-- Every registered entry, the latest first. -/
  ledger : List (Link σ)
  /-- The entries that workers have completed. -/
  completed : List (Entry σ)
  /-- The entries that were held by workers when a fault ended them. -/
  lost : List (Entry σ)
  /-- The entries that were registered and not yet pushed by workers when a fault ended them. -/
  dropped : List (Entry σ)

variable {σ α : Type}

/-- The entry a worker has popped and not completed. -/
def Phase.held : Phase σ α → List (Entry σ)
  | .visiting e | .showing e _ | .opening e | .acting e _ | .judging e _ _ | .noting e _ _ _ | .pushing e _ _ => [e]
  | .starting | .idle | .waiting | .finished => []

/-- The entry a worker has registered and not pushed. -/
def Phase.fresh : Phase σ α → List (Entry σ)
  | .judging _ child _ | .noting _ child _ _ | .pushing _ child _ => [child]
  | _ => []

namespace Search

/-- A worker in the given phase meets code that raises a fault, with discoveries before and after. -/
inductive Raises (m : Model σ α) (cfg : Config σ) (d : Discoveries) : Phase σ α → Fault → Discoveries → Prop
  | visitor {e : Entry σ} {call : Nat} {f : Fault} (h : cfg.visitor call e.state e.fp = .error f) :
    Raises m cfg d (.showing e call) f d
  | boundary {e : Entry σ} {f : Fault} (h : m.withinBoundary e.state = .error f) : Raises m cfg d (.opening e) f d
  | actions {e : Entry σ} {f : Fault} (hb : m.withinBoundary e.state = .ok true)
      (hd : ¬ (0 < cfg.maxDepth ∧ cfg.maxDepth ≤ e.depth)) (h : m.actions e.state = .error f) :
    Raises m cfg d (.opening e) f d
  | next {e : Entry σ} {a : α} {todo : List α} {f : Fault} (h : m.next e.state a = .error f) :
    Raises m cfg d (.acting e (a :: todo)) f d
  | condition {e child : Entry σ} {todo : List α} {f : Fault}
      (h : (d.evaluate m.properties child.state child.fp).fault = some f) :
    Raises m cfg d (.judging e child todo) f (d.evaluate m.properties child.state child.fp).discoveries

/-- **What can happen to a search** and to the chronicle beside it, by the worker `who`, or by the main thread if `who` is
absent. -/
inductive Transition (m : Model σ α) (cfg : Config σ) :
    Option Nat → Search σ α → Chronicle σ → Search σ α → Chronicle σ → Prop
  | log {s : Search σ α} {g : Chronicle σ} {r : List Log.Record} : Transition m cfg none s g { s with records := r } g
  | rest {w : Nat} {s : Search σ α} {g : Chronicle σ} (h : s.phase w = .finished) : Transition m cfg (some w) s g s g
  | start {w : Nat} {s : Search σ α} {g : Chronicle σ} {r : List Log.Record} (h : s.workers[w]? = some .starting) :
    Transition m cfg (some w) s g { s with workers := s.workers.set w .idle, records := r } g
  | take {w pick : Nat} {s : Search σ α} {g : Chronicle σ} {r : List Log.Record} {p : Phase σ α} {e : Entry σ}
      {theft : Option Frontier.Theft} {f : Frontier (Entry σ)} (h : s.workers[w]? = some p) (hp : p = .idle ∨ p = .waiting)
      (hpop : s.frontier.pop w pick = (.entry e, theft, f)) :
    Transition m cfg (some w) s g
      { s with frontier := f, workers := s.workers.set w (.visiting e), records := r } g
  | wait {w pick : Nat} {s : Search σ α} {g : Chronicle σ} {p : Phase σ α} (h : s.workers[w]? = some p)
      (hp : p = .idle ∨ p = .waiting) (hpop : s.frontier.pop w pick = (.waiting, none, s.frontier)) :
    Transition m cfg (some w) s g { s with workers := s.workers.set w .waiting } g
  | leave {w pick : Nat} {s : Search σ α} {g : Chronicle σ} {r : List Log.Record} {p : Phase σ α}
      (h : s.workers[w]? = some p) (hp : p = .idle ∨ p = .waiting)
      (hpop : s.frontier.pop w pick = (.over, none, s.frontier)) :
    Transition m cfg (some w) s g { s with workers := s.workers.set w .finished, records := r } g
  | visit {w : Nat} {s : Search σ α} {g : Chronicle σ} {e : Entry σ} (h : s.workers[w]? = some (.visiting e)) :
    Transition m cfg (some w) s g
      { s with
        expanded := s.expanded + 1
        maxDepth := max s.maxDepth e.depth
        visits := (e.state, e.fp) :: s.visits
        workers := s.workers.set w (.showing e (s.expanded + 1)) } g
  | present {w call : Nat} {s : Search σ α} {g : Chronicle σ} {e : Entry σ}
      (h : s.workers[w]? = some (.showing e call)) (hv : cfg.visitor call e.state e.fp = .ok ()) :
    Transition m cfg (some w) s g { s with workers := s.workers.set w (.opening e) } g
  | outside {w : Nat} {s : Search σ α} {g : Chronicle σ} {e : Entry σ} (h : s.workers[w]? = some (.opening e))
      (hb : m.withinBoundary e.state = .ok false) :
    Transition m cfg (some w) s g { s with workers := s.workers.set w (.acting e []) } g
  | deep {w : Nat} {s : Search σ α} {g : Chronicle σ} {e : Entry σ} (h : s.workers[w]? = some (.opening e))
      (hb : m.withinBoundary e.state = .ok true) (hd : 0 < cfg.maxDepth ∧ cfg.maxDepth ≤ e.depth) :
    Transition m cfg (some w) s g
      { s with depthLimited := true, workers := s.workers.set w (.acting e []) } g
  | enumerate {w : Nat} {s : Search σ α} {g : Chronicle σ} {e : Entry σ} {as : List α}
      (h : s.workers[w]? = some (.opening e)) (hb : m.withinBoundary e.state = .ok true)
      (hd : ¬ (0 < cfg.maxDepth ∧ cfg.maxDepth ≤ e.depth)) (ha : m.actions e.state = .ok as) :
    Transition m cfg (some w) s g
      { s with actionCount := s.actionCount + as.length, workers := s.workers.set w (.acting e as) } g
  | complete {w : Nat} {s : Search σ α} {g : Chronicle σ} {e : Entry σ} (h : s.workers[w]? = some (.acting e [])) :
    Transition m cfg (some w) s g
      { s with frontier := s.frontier.complete, workers := s.workers.set w .idle }
      { g with completed := e :: g.completed }
  | skip {w : Nat} {s : Search σ α} {g : Chronicle σ} {e : Entry σ} {a : α} {todo : List α}
      (h : s.workers[w]? = some (.acting e (a :: todo))) (hn : m.next e.state a = .ok none) :
    Transition m cfg (some w) s g { s with workers := s.workers.set w (.acting e todo) } g
  | known {w : Nat} {s : Search σ α} {g : Chronicle σ} {e : Entry σ} {a : α} {todo : List α} {t : σ}
      {parent : Fingerprint} {registry : Predecessors} (h : s.workers[w]? = some (.acting e (a :: todo)))
      (hn : m.next e.state a = .ok (some t)) (hl : s.registry.lookup (m.fingerprint t) = some parent)
      (hs : registry.Sound) (hb : registry.bindings.Perm s.registry.bindings) :
    Transition m cfg (some w) s g { s with registry, workers := s.workers.set w (.acting e todo) } g
  | discover {w : Nat} {s : Search σ α} {g : Chronicle σ} {e : Entry σ} {a : α} {todo : List α} {t : σ}
      {registry : Predecessors} (h : s.workers[w]? = some (.acting e (a :: todo)))
      (hn : m.next e.state a = .ok (some t)) (hl : s.registry.lookup (m.fingerprint t) = none)
      (hs : registry.Sound) (hb : registry.bindings.Perm ((m.fingerprint t, e.fp) :: s.registry.bindings)) :
    Transition m cfg (some w) s g
      { s with registry, workers := s.workers.set w (.judging e ⟨t, m.fingerprint t, e.depth + 1⟩ todo) }
      { g with ledger := ⟨⟨t, m.fingerprint t, e.depth + 1⟩, e.fp⟩ :: g.ledger }
  | judge {w : Nat} {s : Search σ α} {g : Chronicle σ} {r : List Log.Record} {e child : Entry σ} {todo : List α}
      {ev : Discoveries.Evaluation} (h : s.workers[w]? = some (.judging e child todo))
      (hev : ev = s.discoveries.evaluate m.properties child.state child.fp) (hf : ev.fault = none) :
    Transition m cfg (some w) s g
      { s with
        discoveries := ev.discoveries
        workers := s.workers.set w (.noting e child todo ev.findings)
        records := r } g
  | note {w : Nat} {s : Search σ α} {g : Chronicle σ} {r : List Log.Record} {e child : Entry σ} {todo : List α}
      {findings : Findings} {reason : Option StopReason} {stop : Bool}
      (h : s.workers[w]? = some (.noting e child todo findings))
      (hn : s.note cfg (.worker w) findings =
        { s with stopReason := reason, frontier := s.frontier.flagged stop, records := r }) :
    Transition m cfg (some w) s g
      { s with
        stopReason := reason
        frontier := s.frontier.flagged stop
        workers := s.workers.set w (.pushing e child todo)
        records := r } g
  | give {w : Nat} {s : Search σ α} {g : Chronicle σ} {e child : Entry σ} {todo : List α}
      (h : s.workers[w]? = some (.pushing e child todo)) :
    Transition m cfg (some w) s g
      { s with frontier := s.frontier.announce.append w child, workers := s.workers.set w (.acting e todo) } g
  | crash {w : Nat} {s : Search σ α} {g : Chronicle σ} {r : List Log.Record} {p : Phase σ α} {e : Entry σ} {f : Fault}
      {d : Discoveries} (h : s.workers[w]? = some p) (hp : p.held = [e]) (hf : Raises m cfg s.discoveries p f d) :
    Transition m cfg (some w) s g
      { s with
        fault := s.fault.or (some f)
        stopReason := s.stopReason.or (some .error)
        frontier := s.frontier.requestStop
        discoveries := d
        workers := s.workers.set w .finished
        records := r }
      { g with lost := e :: g.lost, dropped := p.fresh ++ g.dropped }
  | cancel {s : Search σ α} {g : Chronicle σ} {r : List Log.Record} (h : s.done = false) :
    Transition m cfg none s g
      { s with
        stopReason := s.stopReason.or (some .stopped)
        frontier := s.frontier.requestStop
        records := r } g
  | again {s : Search σ α} {g : Chronicle σ} {registry : Predecessors} (hs : registry.Sound)
      (hb : registry.bindings.Perm s.registry.bindings) : Transition m cfg none s g { s with registry } g
  | plant {s : Search σ α} {g : Chronicle σ} {r r' : List Log.Record} {state : σ} {registry : Predecessors}
      {ev : Discoveries.Evaluation} {reason : Option StopReason} {stop : Bool}
      (hw : ∀ p ∈ s.workers, p = .starting) (hi : state ∈ m.initStates)
      (hl : s.registry.lookup (m.fingerprint state) = none) (hs : registry.Sound)
      (hb : registry.bindings.Perm ((m.fingerprint state, m.fingerprint state) :: s.registry.bindings))
      (hev : ev = s.discoveries.evaluate m.properties state (m.fingerprint state)) (hf : ev.fault = none)
      (hn : Search.note cfg .main ev.findings { s with registry, discoveries := ev.discoveries, records := r' } =
        { s with
          registry, discoveries := ev.discoveries, stopReason := reason
          frontier := s.frontier.flagged stop, records := r }) :
    Transition m cfg none s g
      { s with
        registry, discoveries := ev.discoveries, stopReason := reason
        frontier := (s.frontier.flagged stop).seed ⟨state, m.fingerprint state, 1⟩
        records := r }
      { g with ledger := ⟨⟨state, m.fingerprint state, 1⟩, m.fingerprint state⟩ :: g.ledger }

/-! ## Stopping -/

theorem stop_eq (s : Search σ α) (speaker : Log.Speaker) (reason : StopReason) : ∃ r, s.stop speaker reason =
    { s with stopReason := s.stopReason.or (some reason), frontier := s.frontier.requestStop, records := r } := by
  unfold stop
  cases h : s.stopReason with
  | none => exact ⟨_, rfl⟩
  | some x => exact ⟨s.records, by simp [h]⟩

/-- Noting what was found changes nothing but the stop flag, the reason for it and the log. -/
theorem note_eq (cfg : Config σ) (speaker : Log.Speaker) (findings : Findings) (s : Search σ α) :
    ∃ reason stop r, s.note cfg speaker findings =
        { s with stopReason := reason, frontier := s.frontier.flagged stop, records := r } ∧
      (reason = s.stopReason ∧ stop = s.frontier.stopRequested ∨
        stop = true ∧ ∃ x, reason = s.stopReason.or (some x)) := by
  have hstop : ∀ (s : Search σ α) (x : StopReason), ∃ r, s.stop speaker x =
      { s with
        stopReason := s.stopReason.or (some x), frontier := s.frontier.flagged true, records := r } :=
    fun s x => stop_eq s speaker x
  unfold note
  dsimp only
  split
  · obtain ⟨r₁, h₁⟩ := hstop s .stopped
    split
    · obtain ⟨r₂, h₂⟩ := hstop (s.stop speaker .stopped) .boundReached
      refine ⟨_, true, r₂, ?_, Or.inr ⟨rfl, .stopped, rfl⟩⟩
      rw [h₂, h₁]
      simp [Frontier.flagged]
    · exact ⟨_, true, r₁, h₁, Or.inr ⟨rfl, .stopped, rfl⟩⟩
  · split
    · obtain ⟨r₁, h₁⟩ := hstop s .boundReached
      exact ⟨_, true, r₁, h₁, Or.inr ⟨rfl, .boundReached, rfl⟩⟩
    · exact ⟨s.stopReason, s.frontier.stopRequested, s.records, rfl, Or.inl ⟨rfl, rfl⟩⟩

theorem finish_eq (s : Search σ α) (w : Nat) :
    ∃ r, s.finish w = { s with workers := s.workers.set w .finished, records := r } := by
  unfold finish
  dsimp only
  split
  · exact ⟨_, rfl⟩
  · exact ⟨_, rfl⟩

theorem crash_eq (s : Search σ α) (w : Nat) (f : Fault) : ∃ r, s.crash w f =
    { s with
      fault := s.fault.or (some f), stopReason := s.stopReason.or (some .error), frontier := s.frontier.requestStop
      workers := s.workers.set w .finished, records := r } := by
  unfold crash
  obtain ⟨r, hr⟩ := stop_eq { s with fault := s.fault.or (some f) } (.worker w) .error
  rw [hr]
  exact finish_eq _ w

/-! ## Registering -/

/-- In a sound registry a fingerprint is known, or it is new and is registered. -/
theorem register_cases {s : Search σ α} (hs : s.registry.Sound) {fp : Fingerprint} (hfp : fp ≠ Hash.noFingerprint)
    (parent : Fingerprint) :
    (∃ old registry, s.registry.lookup fp = some old ∧ s.register fp parent = (.ok false, { s with registry }) ∧
      registry.Sound ∧ registry.bindings.Perm s.registry.bindings) ∨
    (∃ registry, s.registry.lookup fp = none ∧ s.register fp parent = (.ok true, { s with registry }) ∧
      registry.Sound ∧ registry.bindings.Perm ((fp, parent) :: s.registry.bindings)) := by
  cases hl : s.registry.lookup fp with
  | some old =>
    obtain ⟨registry, hins, hsound, hperm⟩ := hs.insertIfAbsent_known parent hl
    exact Or.inl ⟨old, registry, rfl, by rw [register, hins], hsound, hperm⟩
  | none =>
    obtain ⟨registry, hins, hsound, hperm⟩ := hs.insertIfAbsent_new parent hfp hl
    exact Or.inr ⟨registry, rfl, by rw [register, hins], hsound, hperm⟩

theorem fingerprint_ne (m : Model σ α) (s : σ) : m.fingerprint s ≠ Hash.noFingerprint := Hash.fingerprint_ne (m.hash s)

/-! ## Moves -/

theorem phase_eq {s : Search σ α} {w : Nat} {p : Phase σ α} (h : s.workers[w]? = some p) : s.phase w = p := by
  rw [phase, h]
  rfl

theorem take_transition {m : Model σ α} {cfg : Config σ} {s : Search σ α} {w : Nat} {p : Phase σ α} (pick : Nat)
    (g : Chronicle σ) (hw : w < s.frontier.workers) (h : s.workers[w]? = some p) (hp : p = .idle ∨ p = .waiting) :
    Transition m cfg (some w) s g (s.take pick w) g := by
  unfold take
  rcases s.frontier.pop_cases pick hw with ⟨e, theft, f, hpop, -⟩ | ⟨hpop, -⟩ | ⟨hpop, -⟩
  · rw [hpop]
    cases theft with
    | none => exact .take h hp hpop
    | some t => exact .take h hp hpop
  · rw [hpop]
    exact .wait h hp hpop
  · rw [hpop]
    obtain ⟨r, hr⟩ := finish_eq s w
    dsimp only
    rw [hr]
    exact .leave h hp hpop

theorem crash_transition {m : Model σ α} {cfg : Config σ} {s : Search σ α} {w : Nat} {p : Phase σ α} {e : Entry σ}
    {f : Fault} (g : Chronicle σ) (h : s.workers[w]? = some p) (hp : p.held = [e])
    (hf : Raises m cfg s.discoveries p f s.discoveries) : ∃ g', Transition m cfg (some w) s g (s.crash w f) g' := by
  obtain ⟨r, hr⟩ := crash_eq s w f
  rw [hr]
  exact ⟨_, .crash h hp hf⟩

theorem enumerate_transition {m : Model σ α} {cfg : Config σ} {s : Search σ α} {w : Nat} {e : Entry σ} (g : Chronicle σ)
    (h : s.workers[w]? = some (.opening e)) : ∃ g', Transition m cfg (some w) s g (s.enumerate m cfg w e) g' := by
  unfold enumerate
  cases hb : m.withinBoundary e.state with
  | error f => exact crash_transition g h rfl (.boundary hb)
  | ok inside =>
    cases inside with
    | false => exact ⟨g, .outside h hb⟩
    | true =>
      dsimp only
      by_cases hd : 0 < cfg.maxDepth ∧ cfg.maxDepth ≤ e.depth
      · rw [if_pos (by simpa using hd)]
        exact ⟨g, .deep h hb hd⟩
      · rw [if_neg (by simpa using hd)]
        cases ha : m.actions e.state with
        | error f => exact crash_transition g h rfl (.actions hb hd ha)
        | ok as => exact ⟨g, .enumerate h hb hd ha⟩

theorem adopt_transition {m : Model σ α} {cfg : Config σ} {s : Search σ α} {w : Nat} {e : Entry σ} {a : α}
    {todo : List α} {t : σ} {fp : Fingerprint} (g : Chronicle σ) (hs : s.registry.Sound)
    (h : s.workers[w]? = some (.acting e (a :: todo))) (hn : m.next e.state a = .ok (some t))
    (hfp : fp = m.fingerprint t) :
    ∃ g', Transition m cfg (some w) s g (s.adopt w e ⟨t, fp, e.depth + 1⟩ todo) g' := by
  have hne : fp ≠ Hash.noFingerprint := by
    rw [hfp]
    exact fingerprint_ne m t
  unfold adopt
  rcases register_cases hs hne e.fp with
    ⟨old, registry, hl, hreg, hsound, hperm⟩ | ⟨registry, hl, hreg, hsound, hperm⟩
  · rw [hreg]
    rw [hfp] at hl
    exact ⟨g, .known h hn hl hsound hperm⟩
  · rw [hreg]
    subst hfp
    exact ⟨_, .discover h hn hl hsound hperm⟩

theorem act_transition {m : Model σ α} {cfg : Config σ} {s : Search σ α} {w : Nat} {e : Entry σ} {a : α} {todo : List α}
    (g : Chronicle σ) (hs : s.registry.Sound) (h : s.workers[w]? = some (.acting e (a :: todo))) :
    ∃ g', Transition m cfg (some w) s g (s.act m w e a todo) g' := by
  unfold act
  cases hn : m.next e.state a with
  | error f => exact crash_transition g h rfl (.next hn)
  | ok next =>
    cases next with
    | none => exact ⟨g, .skip h hn⟩
    | some t => exact adopt_transition g hs h hn rfl

theorem judge_transition {m : Model σ α} {cfg : Config σ} {s : Search σ α} {w : Nat} {e child : Entry σ}
    {todo : List α} (g : Chronicle σ) (pick : Nat) (h : s.workers[w]? = some (.judging e child todo)) :
    ∃ g', Transition m cfg (some w) s g (s.step m cfg w pick) g' := by
  unfold step
  rw [phase_eq h]
  dsimp only
  unfold judge
  dsimp only
  cases hf : (s.discoveries.evaluate m.properties child.state child.fp).fault with
  | none => exact ⟨g, .judge h rfl hf⟩
  | some f =>
    dsimp only
    obtain ⟨r, hr⟩ := crash_eq { s with
      discoveries := (s.discoveries.evaluate m.properties child.state child.fp).discoveries
      records := (s.discoveries.evaluate m.properties child.state child.fp).messages.map (fun message =>
        (⟨.property, .worker w, message⟩ : Log.Record)) ++ s.records } w f
    rw [hr]
    exact ⟨_, .crash h rfl (.condition hf)⟩

/-- **A step of a worker is a transition**, in a search with a sound registry and a deque for each worker. -/
theorem step_transition (m : Model σ α) (cfg : Config σ) (s : Search σ α) (g : Chronicle σ) (w pick : Nat)
    (hs : s.registry.Sound) (hw : s.frontier.workers = s.workers.length) :
    ∃ g', Transition m cfg (some w) s g (s.step m cfg w pick) g' := by
  cases h : s.workers[w]? with
  | none =>
    have hp : s.phase w = .finished := by rw [phase, h]; rfl
    rw [step, hp]
    exact ⟨g, .rest hp⟩
  | some p =>
    have hlt : w < s.frontier.workers := by
      rw [hw]
      exact (List.getElem?_eq_some_iff.1 h).1
    cases p with
    | judging e child todo => exact judge_transition g pick h
    | finished =>
      rw [step, phase_eq h]
      exact ⟨g, .rest (phase_eq h)⟩
    | starting =>
      rw [step, phase_eq h]
      exact ⟨g, .start h⟩
    | idle =>
      rw [step, phase_eq h]
      exact ⟨g, take_transition pick g hlt h (Or.inl rfl)⟩
    | waiting =>
      rw [step, phase_eq h]
      exact ⟨g, take_transition pick g hlt h (Or.inr rfl)⟩
    | visiting e =>
      rw [step, phase_eq h]
      exact ⟨g, .visit h⟩
    | showing e call =>
      rw [step, phase_eq h]
      dsimp only
      unfold present
      cases hv : cfg.visitor call e.state e.fp with
      | error f => exact crash_transition g h rfl (.visitor hv)
      | ok u => exact ⟨g, .present h hv⟩
    | opening e =>
      rw [step, phase_eq h]
      exact enumerate_transition g h
    | acting e todo =>
      rw [step, phase_eq h]
      cases todo with
      | nil => exact ⟨_, .complete h⟩
      | cons a todo => exact act_transition g hs h
    | noting e child todo findings =>
      rw [step, phase_eq h]
      obtain ⟨reason, stop, r, hn, -⟩ := note_eq cfg (.worker w) findings s
      dsimp only
      rw [hn]
      exact ⟨g, .note h hn⟩
    | pushing e child todo =>
      rw [step, phase_eq h]
      dsimp only
      rw [give, Frontier.push, if_pos hlt]
      exact ⟨g, .give h⟩

theorem cancel_transition (m : Model σ α) (cfg : Config σ) (s : Search σ α) (g : Chronicle σ) :
    Transition m cfg none s g s.cancel g := by
  unfold cancel
  cases hd : s.done with
  | true => exact .log
  | false =>
    obtain ⟨r, hr⟩ := stop_eq s .main .stopped
    rw [if_neg (by simp), hr]
    exact .cancel hd

theorem move_transition (m : Model σ α) (cfg : Config σ) (s : Search σ α) (g : Chronicle σ) (mv : Move)
    (hs : s.registry.Sound) (hw : s.frontier.workers = s.workers.length) :
    ∃ who g', Transition m cfg who s g (s.move m cfg mv) g' := by
  cases mv with
  | work w pick =>
    obtain ⟨g', hg⟩ := step_transition m cfg s g w pick hs hw
    exact ⟨some w, g', hg⟩
  | cancel => exact ⟨none, g, cancel_transition m cfg s g⟩

/-! ## Seeding -/

theorem plant_cases {m : Model σ α} {cfg : Config σ} {s s' : Search σ α} {root : Entry σ} (hs : s.registry.Sound)
    (hne : root.fp ≠ Hash.noFingerprint) (h : s.plant m cfg root = (.ok (), s')) :
    (∃ old registry, s.registry.lookup root.fp = some old ∧ registry.Sound ∧
      registry.bindings.Perm s.registry.bindings ∧ s' = { s with registry }) ∨
    (∃ registry ev r, s.registry.lookup root.fp = none ∧ registry.Sound ∧
      registry.bindings.Perm ((root.fp, root.fp) :: s.registry.bindings) ∧
      ev = s.discoveries.evaluate m.properties root.state root.fp ∧ ev.fault = none ∧
      s' = { note cfg .main ev.findings { s with registry, discoveries := ev.discoveries, records := r } with
        frontier := (note cfg .main ev.findings
          { s with registry, discoveries := ev.discoveries, records := r }).frontier.seed root }) := by
  unfold plant at h
  rcases register_cases hs hne root.fp with
    ⟨old, registry, hl, hreg, hsound, hperm⟩ | ⟨registry, hl, hreg, hsound, hperm⟩
  · rw [hreg] at h
    cases h
    exact Or.inl ⟨old, registry, hl, hsound, hperm, rfl⟩
  · rw [hreg] at h
    dsimp only [judge] at h
    cases hf : (s.discoveries.evaluate m.properties root.state root.fp).fault with
    | some f =>
      rw [hf] at h
      cases h
    | none =>
      rw [hf] at h
      cases h
      exact Or.inr ⟨registry, _, _, hl, hsound, hperm, rfl, hf, rfl⟩

theorem plant_transition {m : Model σ α} {cfg : Config σ} {s s' : Search σ α} {state : σ} {fp : Fingerprint}
    (g : Chronicle σ) (hs : s.registry.Sound) (hw : ∀ p ∈ s.workers, p = .starting) (hi : state ∈ m.initStates)
    (hfp : fp = m.fingerprint state) (h : s.plant m cfg ⟨state, fp, 1⟩ = (.ok (), s')) :
    ∃ g', Transition m cfg none s g s' g' ∧ s'.workers = s.workers ∧ s'.registry.lookup fp ≠ none ∧
      ∀ l ∈ g'.ledger, l ∈ g.ledger ∨ l.entry.depth = 1 := by
  have hne : fp ≠ Hash.noFingerprint := by
    rw [hfp]
    exact fingerprint_ne m state
  rcases plant_cases hs hne h with
    ⟨old, registry, hl, hsound, hperm, rfl⟩ | ⟨registry, ev, r', hl, hsound, hperm, hev, hf, rfl⟩
  · refine ⟨g, .again hsound hperm, rfl, ?_, fun l hl => Or.inl hl⟩
    rw [hs.lookup_congr hsound hperm, hl]
    simp
  · obtain ⟨reason, stop, r, hn, -⟩ := note_eq cfg .main ev.findings
      { s with registry, discoveries := ev.discoveries, records := r' }
    rw [hn]
    have hknown : registry.lookup fp ≠ none := by
      rw [hs.lookup_cons hsound hperm, if_pos rfl]
      simp
    subst hfp
    refine ⟨_, .plant hw hi hl hsound hperm hev hf hn, rfl, hknown, fun l hl => ?_⟩
    rcases List.mem_cons.1 hl with rfl | hl
    · exact Or.inr rfl
    · exact Or.inl hl

end Search

end StateSpace
