import StateSpace.Proofs.Search.Levels
import StateSpace.Proofs.Search.Termination

/-!
# A single worker stops promptly, and the frontier accounts for what is left

* `after_from` : what the steps of workers keep holds from some point of a run on;
* `Calm m cfg s` : when an expansion is about to begin, no alarm sounds; `after_calm` : so it is in every run of a
  single worker that is not cancelled;
* `Transition.sounds` : an alarm that sounds does not cease; `visits_after_alarm` : so no expansion begins after one;
* `Restrained m cfg s` : the states registered, and the actions left to perform, are fewer than the bound and the
  fan-out of the last visited state together (`after_restrained`);
* `Reached.accounted` : what is registered and not expanded is pending at the end, unless code of the model threw;
* `stops_promptly` : the four together.
-/

namespace StateSpace

variable {σ α : Type}

/-- How many actions a worker has still to perform for the entry it expands. -/
def Phase.remaining : Phase σ α → Nat
  | .acting _ todo | .judging _ _ todo | .noting _ _ todo _ | .pushing _ _ todo => todo.length
  | _ => 0

/-- The entry that a worker has visited without enumerating its actions. -/
def Phase.unopened : Phase σ α → List (Entry σ)
  | .showing e _ | .opening e => [e]
  | _ => []

namespace Search

variable {m : Model σ α} {cfg : Config σ} {s s' : Search σ α} {g g' : Chronicle σ}

/-- What holds at some point of a run that is not cancelled, and is kept by the steps of workers in such runs, holds
from there on. -/
theorem after_from {P : Search σ α → Prop} (hseed : (seed m cfg).1 = .ok ()) (before : List Move)
    {rest : List Move} (hm : ∀ mv ∈ before ++ rest, mv ≠ .cancel) (h : P (after m cfg before))
    (hstep : ∀ moves, (∀ mv ∈ moves, mv ≠ .cancel) → ∀ g w s' g', Reached m cfg (after m cfg moves) g →
      Transition m cfg (some w) (after m cfg moves) g s' g' → P (after m cfg moves) → P s') :
    P (after m cfg (before ++ rest)) := by
  induction rest using List.reverseRecOn with
  | nil =>
    rw [List.append_nil]
    exact h
  | append_singleton rest mv ih =>
    rw [← List.append_assoc] at hm ⊢
    have hbefore : ∀ mv ∈ before ++ rest, mv ≠ .cancel := fun mv' h' => hm mv' (List.mem_append_left _ h')
    obtain ⟨g, hr, -⟩ := after_reached hseed (before ++ rest)
    rw [after_concat]
    cases mv with
    | cancel => exact absurd rfl (hm .cancel (List.mem_append_right _ List.mem_cons_self))
    | work w pick =>
      obtain ⟨g', ht⟩ := step_transition m cfg (after m cfg (before ++ rest)) g w pick hr.sound hr.workers
      exact hstep _ hbefore g w _ g' hr ht (ih hbefore)

/-! ## No expansion begins while an alarm sounds -/

/-- No alarm sounds when the expansion of an entry is about to begin. -/
def Calm (m : Model σ α) (cfg : Config σ) (s : Search σ α) : Prop :=
  ∀ e, s.phase 0 = .visiting e → ∀ a : Alarm, ¬ a.Sounds m cfg s

/-- A search with a single worker that is given an entry is silent: the alarms that sounded would have stopped it. -/
theorem Heeded.silent_of_pop (hr : Reached m cfg s g) (h1 : cfg.workers ≤ 1) (h : Heeded m cfg s) {w pick : Nat}
    {p : Phase σ α} {e : Entry σ} {theft : Option Frontier.Theft} {f : Frontier (Entry σ)} (hw : s.workers[w]? = some p)
    (hp : p = .idle ∨ p = .waiting) (hpop : s.frontier.pop w pick = (.entry e, theft, f)) (a : Alarm) :
    ¬ a.Sounds m cfg s := by
  intro ha
  rcases h a ha with hstop | ⟨q, hq, hatt⟩
  · have hreq : s.frontier.stopRequested = true := by
      rw [hr.endings.requested, Option.isSome_iff_ne_none]
      exact hstop
    rw [Frontier.pop, if_pos hreq] at hpop
    cases hpop
  · have hzero := hr.solo_worker h1 hw
    subst hzero
    rw [hr.solo h1, List.mem_singleton, phase_eq hw] at hq
    subst hq
    exact Phase.not_attends (held_of_idle hp).2 a hatt

/-- **A step of a single worker** begins no expansion while an alarm sounds. -/
theorem Transition.calm {w : Nat} (hr : Reached m cfg s g) (h1 : cfg.workers ≤ 1) (hh : Heeded m cfg s)
    (ht : Transition m cfg (some w) s g s' g') (h : Calm m cfg s) : Calm m cfg s' := by
  cases ht with
  | rest => exact h
  | take hw hp hpop =>
    intro e _ a ha
    apply hh.silent_of_pop hr h1 hw hp hpop a
    exact (sounds_congr rfl rfl a).1 ha
  | start hw | wait hw | leave hw | visit hw | present hw | outside hw | deep hw | enumerate hw | complete hw | skip hw
  | known hw | discover hw | judge hw | note hw | give hw | crash hw =>
    intro e he
    have hzero := hr.solo_worker h1 hw
    subst hzero
    rw [phase_set hw rfl] at he
    cases he

theorem seed_calm (hseed : (seed m cfg).1 = .ok ()) : Calm m cfg (seed m cfg).2 := by
  obtain ⟨g, hs⟩ := seed_seeded hseed
  intro e he
  rw [hs.phase_eq] at he
  cases he

theorem after_calm (h1 : cfg.workers ≤ 1) (hseed : (seed m cfg).1 = .ok ()) {moves : List Move}
    (hm : ∀ mv ∈ moves, mv ≠ .cancel) : Calm m cfg (after m cfg moves) := by
  apply after_from hseed [] hm (seed_calm hseed)
  intro moves hm g w s' g' hr ht h
  exact ht.calm hr h1 (after_heeded hseed hm) h

/-! ## Alarms do not cease -/

theorem Transition.grows {w : Nat} (hr : Reached m cfg s g) (ht : Transition m cfg (some w) s g s' g') :
    s.discoveries.Grows s'.discoveries := by
  cases ht with
  | judge hw hev =>
    obtain ⟨l, hl, rfl⟩ := hr.custody.mem_ledger hw (List.mem_cons_of_mem _ List.mem_cons_self)
    rw [hev]
    exact (Discoveries.evaluate_spec l.entry.state (hr.fp_ne hl) hr.judgement.length).1
  | crash hw _ hf =>
    cases hf with
    | condition =>
      obtain ⟨l, hl, rfl⟩ := hr.custody.mem_ledger hw (List.mem_cons_of_mem _ List.mem_cons_self)
      exact (Discoveries.evaluate_spec l.entry.state (hr.fp_ne hl) hr.judgement.length).1
    | _ => exact .refl _
  | _ => exact .refl _

theorem Transition.sounds {w : Nat} {a : Alarm} (hr : Reached m cfg s g) (ht : Transition m cfg (some w) s g s' g')
    (h : a.Sounds m cfg s) : a.Sounds m cfg s' := by
  have hgen : s.generated ≤ s'.generated := by
    rw [hr.size_eq, (hr.next ht).size_eq]
    exact ht.ledger.length_le
  cases a with
  | states => exact ⟨h.1, h.2.trans hgen⟩
  | violation => exact ⟨h.1, h.2.mono (ht.grows hr)⟩
  | resolution => exact h.mono (ht.grows hr)

/-- Whatever counts an expansion is the step of a worker whose entry is about to be expanded. -/
theorem Transition.visits_cases {who : Option Nat} (ht : Transition m cfg who s g s' g') :
    s'.visits = s.visits ∧ s'.expanded = s.expanded ∨ ∃ (w : Nat) (e : Entry σ), s.workers[w]? = some (.visiting e) := by
  cases ht with
  | visit hw => exact Or.inr ⟨_, _, hw⟩
  | _ => exact Or.inl ⟨rfl, rfl⟩

/-- While an alarm sounds a step of a single worker counts no expansion. -/
theorem Calm.visits_eq (h : Calm m cfg s) (hr : Reached m cfg s g) (h1 : cfg.workers ≤ 1) {who : Option Nat}
    (ht : Transition m cfg who s g s' g') {a : Alarm} (ha : a.Sounds m cfg s) :
    s'.visits = s.visits ∧ s'.expanded = s.expanded := by
  rcases ht.visits_cases with hsame | ⟨w, e, hw⟩
  · exact hsame
  · have hzero := hr.solo_worker h1 hw
    subst hzero
    exact absurd ha (h e (phase_eq hw) a)

/-- **After an alarm no expansion begins**, and the alarm goes on. -/
theorem visits_after_alarm (h1 : cfg.workers ≤ 1) (hseed : (seed m cfg).1 = .ok ()) {before rest : List Move}
    (hm : ∀ mv ∈ before ++ rest, mv ≠ .cancel) {a : Alarm} (ha : a.Sounds m cfg (after m cfg before)) :
    a.Sounds m cfg (after m cfg (before ++ rest)) ∧
      (after m cfg (before ++ rest)).visits = (after m cfg before).visits ∧
      (after m cfg (before ++ rest)).expanded = (after m cfg before).expanded := by
  apply after_from (P := fun s => a.Sounds m cfg s ∧ s.visits = (after m cfg before).visits ∧
    s.expanded = (after m cfg before).expanded) hseed before hm ⟨ha, rfl, rfl⟩
  rintro moves hm g w s' g' hr ht ⟨hsounds, hvisits, hexpanded⟩
  obtain ⟨hv, he⟩ := (after_calm h1 hseed hm).visits_eq hr h1 ht hsounds
  exact ⟨ht.sounds hr hsounds, hv.trans hvisits, he.trans hexpanded⟩

/-! ## How far the bound is overshot -/

def lastFanOut (m : Model σ α) (s : Search σ α) : Nat :=
  match s.visits with
  | [] => 0
  | (t, _) :: _ => m.fanOut t

/-- The states registered are not too many, even if each of the actions left to perform leads to a new one. -/
structure Restrained (m : Model σ α) (cfg : Config σ) (s : Search σ α) : Prop where
  few : s.generated + (s.phase 0).remaining < cfg.maxStates + lastFanOut m s
  unopened : ∀ e ∈ (s.phase 0).unopened, s.generated < cfg.maxStates ∧ s.visits.head? = some (e.state, e.fp)

/-- A worker that has opened the entry it visits, or has none, may register as many states as actions are dealt with. -/
theorem Restrained.set (h : Restrained m cfg s) {p q : Phase σ α} (hw : s.workers[0]? = some p)
    (hws : s'.workers = s.workers.set 0 q) (hv : s'.visits = s.visits)
    (hle : s'.generated + q.remaining ≤ s.generated + p.remaining) (hq : q.unopened = []) : Restrained m cfg s' := by
  have hfew := h.few
  rw [phase_eq hw] at hfew
  constructor
  · rw [phase_set hw hws]
    unfold lastFanOut at hfew ⊢
    rw [hv]
    omega
  · rw [phase_set hw hws, hq]
    intro e he
    cases he

theorem lastFanOut_eq {t : σ} {fp : Fingerprint} (h : s.visits.head? = some (t, fp)) : lastFanOut m s = m.fanOut t := by
  obtain ⟨rest, hrest⟩ := List.head?_eq_some_iff.1 h
  unfold lastFanOut
  rw [hrest]

/-- **A step of a single worker** keeps the number of states restrained. -/
theorem Transition.restrained {w : Nat} (hr : Reached m cfg s g) (h1 : cfg.workers ≤ 1) (hstates : 0 < cfg.maxStates)
    (hcalm : Calm m cfg s) (ht : Transition m cfg (some w) s g s' g') (h : Restrained m cfg s) : Restrained m cfg s' := by
  have hgen : s'.generated = g'.ledger.length := (hr.next ht).size_eq
  have hbefore : s.generated = g.ledger.length := hr.size_eq
  cases ht with
  | rest => exact h
  | start hw | take hw | wait hw | leave hw | complete hw | skip hw | known hw | discover hw | judge hw | note hw | give hw
  | crash hw =>
    -- a state is registered only where an action is dealt with
    have hzero := hr.solo_worker h1 hw
    subst hzero
    refine h.set hw rfl rfl ?_ rfl
    rw [hgen, hbefore]
    simp only [Phase.remaining, List.length_cons]
    omega
  | @visit _ _ _ e hw =>
    have hzero := hr.solo_worker h1 hw
    subst hzero
    -- the bound is not reached, so the fan-out of the entry is not needed yet
    have hlt : s.generated < cfg.maxStates := by
      by_contra hge
      exact hcalm e (phase_eq hw) .states ⟨hstates, Nat.le_of_not_lt hge⟩
    constructor
    · rw [phase_set hw rfl]
      exact Nat.lt_of_lt_of_le hlt (Nat.le_add_right _ _)
    · rw [phase_set hw rfl]
      intro e' he'
      rw [List.mem_singleton.1 he']
      exact ⟨hlt, rfl⟩
  | @present _ _ _ _ e hw =>
    have hzero := hr.solo_worker h1 hw
    subst hzero
    have hfew := h.few
    have hopen := h.unopened
    rw [phase_eq hw] at hfew hopen
    constructor
    · rw [phase_set hw rfl]
      exact hfew
    · rw [phase_set hw rfl]
      exact hopen
  | outside hw | deep hw =>
    have hzero := hr.solo_worker h1 hw
    subst hzero
    exact h.set hw rfl rfl (Nat.le_refl _) rfl
  | @enumerate _ _ _ e as hw hb hd ha =>
    have hzero := hr.solo_worker h1 hw
    subst hzero
    have hopen := h.unopened
    rw [phase_eq hw] at hopen
    obtain ⟨hlt, hhead⟩ := hopen e (List.mem_singleton_self e)
    have hfan : lastFanOut m s = as.length := by rw [lastFanOut_eq hhead, Model.fanOut, ha]
    constructor
    · rw [phase_set hw rfl]
      show s.generated + as.length < cfg.maxStates + lastFanOut m s
      omega
    · rw [phase_set hw rfl]
      intro e' he'
      cases he'

theorem seed_restrained (hseed : (seed m cfg).1 = .ok ()) (hlt : (seed m cfg).2.generated < cfg.maxStates) :
    Restrained m cfg (seed m cfg).2 := by
  obtain ⟨g, hs⟩ := seed_seeded hseed
  constructor
  · rw [hs.phase_eq]
    exact Nat.lt_of_lt_of_le hlt (Nat.le_add_right _ _)
  · rw [hs.phase_eq]
    intro e he
    cases he

/-- **In a run of a single worker that is not cancelled** the number of states is restrained, if it was when the worker
started. -/
theorem after_restrained (h1 : cfg.workers ≤ 1) (hseed : (seed m cfg).1 = .ok ())
    (hlt : (seed m cfg).2.generated < cfg.maxStates) {moves : List Move} (hm : ∀ mv ∈ moves, mv ≠ .cancel) :
    Restrained m cfg (after m cfg moves) := by
  apply after_from hseed [] hm (seed_restrained hseed hlt)
  intro moves hm g w s' g' hr ht h
  exact ht.restrained hr h1 (by omega) (after_calm h1 hseed hm) h

/-! ## What is left -/

theorem Reached.lost_eq_nil (h : Reached m cfg s g) (hf : s.fault = none) : g.lost = [] := by
  induction h with
  | blank => rfl
  | next _ ht ih =>
    cases ht with
    | crash => simp at hf
    | _ => exact ih hf

/-- **What is registered was expanded or is pending**, in a search that is over and met no fault. -/
theorem Reached.accounted (h : Reached m cfg s g) (hdone : s.done = true) (hf : s.fault = none) :
    s.generated = s.expanded + s.frontier.pending.toNat := by
  have hlost := h.lost_eq_nil hf
  have hvisits := (h.tally.visits hlost).length_eq
  have hdropped := h.custody.dropped
  have hpending := h.custody.pending
  have hplaces := h.custody.length_eq
  rw [flatMap_of_done hdone _ rfl, List.length_map, List.nil_append] at hvisits
  rw [flatMap_of_done hdone _ rfl] at hpending hplaces
  rw [hlost, List.length_nil] at hdropped hpending hplaces
  rw [h.size_eq, h.tally.expanded]
  omega

/-! ## Stopping -/

structure StopsPromptly (m : Model σ α) (cfg : Config σ) (moves : List Move) : Prop where
  /-- A step that counts an expansion is made while no alarm sounds. -/
  calm : ∀ before mv rest, moves = before ++ mv :: rest →
    (after m cfg before).expanded < (after m cfg (before ++ [mv])).expanded →
    ∀ a : Alarm, ¬ a.Sounds m cfg (after m cfg before)
  /-- What was visited when an alarm sounds is all that will be. -/
  last : ∀ before rest (a : Alarm), moves = before ++ rest → a.Sounds m cfg (after m cfg before) →
    (after m cfg moves).visits = (after m cfg before).visits ∧
      (after m cfg moves).expanded = (after m cfg before).expanded
  /-- If an alarm sounds after the seeding, nothing is expanded. -/
  first : ∀ a : Alarm, a.Sounds m cfg (seed m cfg).2 → (after m cfg moves).expanded = 0
  /-- Unless the seeding reached the bound, it is overshot by less than one fan-out. -/
  overshoot : (seed m cfg).2.generated < cfg.maxStates →
    (after m cfg moves).generated < cfg.maxStates + lastFanOut m (after m cfg moves)
  /-- If nothing threw, what was not expanded is pending at the end. -/
  left : (after m cfg moves).done = true → ¬ Threw m cfg moves →
    (after m cfg moves).generated = (after m cfg moves).expanded + (after m cfg moves).frontier.pending.toNat

theorem seed_expanded (hseed : (seed m cfg).1 = .ok ()) : (seed m cfg).2.expanded = 0 :=
  seed_keeps Search.expanded (fun _ _ _ _ _ _ => rfl) hseed

/-- **A single worker stops promptly**: the expansion during which an alarm first sounds is the last one, and the
bound on the states is overshot by less than that expansion's actions. The frontier accounts for what is left. -/
theorem stops_promptly (m : Model σ α) (cfg : Config σ) (h1 : cfg.workers ≤ 1) (hseed : (seed m cfg).1 = .ok ()) :
    (∃ s n, check m cfg = .ok s ∧ s.done = true ∧
      ∀ moves : List Move, (∀ mv ∈ moves, ∃ pick, mv = .work 0 pick) → n ≤ moves.length → after m cfg moves = s) ∧
    ∀ moves : List Move, (∀ mv ∈ moves, mv ≠ .cancel) → StopsPromptly m cfg moves := by
  refine ⟨check_solo h1 hseed, fun moves hm => ?_⟩
  have hlast : ∀ before rest (a : Alarm), moves = before ++ rest → a.Sounds m cfg (after m cfg before) →
      (after m cfg moves).visits = (after m cfg before).visits ∧
        (after m cfg moves).expanded = (after m cfg before).expanded := by
    intro before rest a hsplit ha
    rw [hsplit] at hm ⊢
    exact (visits_after_alarm h1 hseed hm ha).2
  constructor
  case calm =>
    intro before mv rest hsplit hlt a ha
    rw [hsplit, List.append_cons] at hm
    have hsame := visits_after_alarm h1 hseed (fun mv' h' => hm mv' (List.mem_append_left _ h')) ha
    omega
  case last => exact hlast
  case first =>
    intro a ha
    have hsame := hlast [] moves a rfl ha
    exact hsame.2.trans (seed_expanded hseed)
  case overshoot =>
    intro hlt
    exact Nat.lt_of_le_of_lt (Nat.le_add_right _ _) (after_restrained h1 hseed hlt hm).few
  case left =>
    intro hdone hthrew
    obtain ⟨g, hr, -⟩ := after_reached hseed moves
    apply hr.accounted hdone
    by_contra hfault
    exact hthrew ((after_fault_iff hseed moves).1 hfault)

def capped : Config Nat := { order := .depthFirst, maxStates := 2 }

/-- The root of the fork has two actions. The first one reaches the bound, the second one is performed all the same. -/
theorem stops_promptly_fork :
    (seed fork.model capped).2.generated = 1 ∧
    (after fork.model capped (List.replicate 20 (.work 0 0))).done = true ∧
    (after fork.model capped (List.replicate 20 (.work 0 0))).generated = 3 ∧
    (after fork.model capped (List.replicate 20 (.work 0 0))).generated <
      capped.maxStates + lastFanOut fork.model (after fork.model capped (List.replicate 20 (.work 0 0))) ∧
    (after fork.model capped (List.replicate 20 (.work 0 0))).generated =
      (after fork.model capped (List.replicate 20 (.work 0 0))).expanded +
        (after fork.model capped (List.replicate 20 (.work 0 0))).frontier.pending.toNat := by
  have hseed : (seed fork.model capped).1 = .ok () := by decide +kernel
  have hroot : (seed fork.model capped).2.generated = 1 := by decide +kernel
  have hdone : (after fork.model capped (List.replicate 20 (.work 0 0))).done = true := by decide +kernel
  have hfault : (after fork.model capped (List.replicate 20 (.work 0 0))).fault = none := by decide +kernel
  have hm : ∀ mv ∈ List.replicate 20 (Move.work 0 0), mv ≠ .cancel := by decide
  have hstops := (stops_promptly fork.model capped (Nat.le_refl 1) hseed).2 _ hm
  refine ⟨hroot, hdone, by decide +kernel, hstops.overshoot (by rw [hroot]; decide), hstops.left hdone fun hthrew => ?_⟩
  exact (after_fault_iff hseed _).2 hthrew hfault

end Search

end StateSpace
