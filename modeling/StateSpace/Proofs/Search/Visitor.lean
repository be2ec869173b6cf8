import StateSpace.Proofs.Search.Termination

/-!
# Visits are calls of the visitor

A worker writes a visit down and calls the visitor in its next step. Other workers may act in between, and the search may be
looked at there.

* `VisitorCall` : what the visitor is called with; `Phase.owed` : the call that a worker makes in its next step;
* `Search.calls m cfg moves` : the calls that moves make, in order;
* `after_visitor` : a run depends on the visitor only through its answers to these calls; `fault_of_call` : and an answer
  that is a fault shows;
* `calls_perm` : the calls made, with those that are owed, are the visits with their numbers;
* `visits_are_calls` : so once a search is over every visit is one call, and a single worker makes them in that order;
* `Undisturbed.calls_perm` : an undisturbed search calls the visitor once for each reachable state.
-/

namespace StateSpace

variable {σ α : Type}

structure VisitorCall (σ : Type) where
  number : Nat
  state : σ
  fp : Fingerprint
  deriving DecidableEq, Repr

/-- The call that a worker makes in its next step. -/
def Phase.owed : Phase σ α → List (VisitorCall σ)
  | .showing e n => [⟨n, e.state, e.fp⟩]
  | _ => []

def Config.answer (cfg : Config σ) (c : VisitorCall σ) : Except Fault Unit := cfg.visitor c.number c.state c.fp

namespace Search

def callsOf (s : Search σ α) : Move → List (VisitorCall σ)
  | .work w _ => (s.phase w).owed
  | .cancel => []

/-- The calls that moves make in a search, in order. -/
def callsFrom (m : Model σ α) (cfg : Config σ) (s : Search σ α) : List Move → List (VisitorCall σ)
  | [] => []
  | mv :: moves => s.callsOf mv ++ callsFrom m cfg (s.move m cfg mv) moves

def calls (m : Model σ α) (cfg : Config σ) (moves : List Move) : List (VisitorCall σ) :=
  callsFrom m cfg (seed m cfg).2 moves

/-- The visits as calls, numbered from one. -/
def numbered (s : Search σ α) : List (VisitorCall σ) := (s.visitList.zipIdx 1).map fun (v, n) => ⟨n, v.1, v.2⟩

variable {m : Model σ α} {cfg : Config σ} {s s' : Search σ α} {g g' : Chronicle σ}

theorem calls_nil : calls m cfg [] = [] := by
  rw [calls, callsFrom]

theorem calls_concat (moves : List Move) (mv : Move) :
    calls m cfg (moves ++ [mv]) = calls m cfg moves ++ (after m cfg moves).callsOf mv := by
  have hfrom : ∀ s : Search σ α, callsFrom m cfg s (moves ++ [mv]) =
      callsFrom m cfg s moves ++ (s.play m cfg moves).callsOf mv := by
    induction moves with
    | nil => exact fun s => List.append_nil _
    | cons mv' moves ih =>
      intro s
      rw [List.cons_append, callsFrom, ih, callsFrom, List.append_assoc]
      rfl
  exact hfrom _

/-! ## What a run asks the visitor -/

section

variable {v : Nat → σ → Fingerprint → Except Fault Unit}

theorem plant_visitor (root : Entry σ) (s : Search σ α) : s.plant m { cfg with visitor := v } root = s.plant m cfg root := rfl

theorem seed_visitor : seed m { cfg with visitor := v } = seed m cfg := by
  have hfrom : ∀ rest, seedFrom m { cfg with visitor := v } rest = seedFrom m cfg rest := by
    intro rest
    induction rest with
    | nil => rfl
    | cons t rest ih =>
      funext s
      rw [seedFrom, seedFrom, ih, plant_visitor]
  unfold seed
  rw [hfrom]
  rfl

theorem move_visitor {mv : Move} (h : ∀ c ∈ s.callsOf mv, v c.number c.state c.fp = cfg.answer c) :
    s.move m { cfg with visitor := v } mv = s.move m cfg mv := by
  cases mv with
  | cancel => rfl
  | work w pick =>
    show s.step m { cfg with visitor := v } w pick = s.step m cfg w pick
    rw [callsOf] at h
    unfold step
    cases hp : s.phase w with
    | showing e n =>
      rw [hp] at h
      have hv : v n e.state e.fp = cfg.visitor n e.state e.fp := h ⟨n, e.state, e.fp⟩ List.mem_cons_self
      dsimp only [present]
      rw [hv]
    | acting e todo =>
      cases todo with
      | nil => rfl
      | cons a todo => rfl
    | _ => rfl

/-- **A run asks the visitor the calls it makes and nothing else**: a visitor that answers them alike gives the same run. -/
theorem after_visitor {moves : List Move} (h : ∀ c ∈ calls m cfg moves, v c.number c.state c.fp = cfg.answer c) :
    after m { cfg with visitor := v } moves = after m cfg moves ∧
      calls m { cfg with visitor := v } moves = calls m cfg moves := by
  induction moves using List.reverseRecOn with
  | nil =>
    refine ⟨?_, by rw [calls_nil, calls_nil]⟩
    rw [after, after, seed_visitor, play, play, List.foldl_nil, List.foldl_nil]
  | append_singleton moves mv ih =>
    rw [calls_concat] at h
    obtain ⟨hcalls, hmove⟩ := List.forall_mem_append.1 h
    obtain ⟨hafter, hsame⟩ := ih hcalls
    rw [after_concat, after_concat, calls_concat, calls_concat, hafter, hsame, move_visitor hmove]
    exact ⟨rfl, rfl⟩

end

/-- A call that the visitor answers with a fault leaves a fault behind. -/
theorem fault_of_call (hseed : (seed m cfg).1 = .ok ()) {moves : List Move} {c : VisitorCall σ} {f : Fault}
    (hc : c ∈ calls m cfg moves) (hf : cfg.answer c = .error f) : (after m cfg moves).fault ≠ none := by
  induction moves using List.reverseRecOn with
  | nil => cases hc
  | append_singleton moves mv ih =>
    rw [calls_concat] at hc
    rw [after_concat]
    rcases List.mem_append.1 hc with hc | hc
    · obtain ⟨g, hr, -⟩ := after_reached hseed moves
      obtain ⟨who, g', ht⟩ := move_transition m cfg _ g mv hr.sound hr.workers
      exact ht.fault_ne (ih hc)
    · cases mv with
      | cancel => cases hc
      | work w pick =>
        have hthrows : Throws m cfg (after m cfg moves).discoveries ((after m cfg moves).phase w) f := by
          rw [callsOf] at hc
          cases hp : (after m cfg moves).phase w with
          | showing e n =>
            rw [hp] at hc
            obtain rfl := List.mem_singleton.1 hc
            exact .visitor hf
          | _ =>
            rw [hp] at hc
            cases hc
        show ((after m cfg moves).step m cfg w pick).fault ≠ none
        rw [hthrows.step]
        simp

/-! ## Calls and visits -/

theorem numbered_of_visits (h : s'.visits = s.visits) : s'.numbered = s.numbered := by
  rw [numbered, numbered, visitList, visitList, h]

theorem numbered_cons {t : σ} {fp : Fingerprint} (hr : Reached m cfg s g) (h : s'.visits = (t, fp) :: s.visits) :
    s'.numbered = s.numbered ++ [⟨s.expanded + 1, t, fp⟩] := by
  rw [numbered, numbered, visitList, visitList, h, List.reverse_cons, List.zipIdx_append, List.map_append,
    List.length_reverse, ← hr.tally.expanded, Nat.add_comm 1]
  rfl

/-- What a move does to calls and visits: a worker makes the call that it owes, and owes another one only for a visit that it
adds. -/
theorem Reached.owed (hr : Reached m cfg s g) (mv : Move) :
    s.callsOf mv = [] ∧ (s.move m cfg mv).workers = s.workers ∧ (s.move m cfg mv).numbered = s.numbered ∨
    ∃ w p q, s.workers[w]? = some p ∧ (s.move m cfg mv).workers = s.workers.set w q ∧ s.callsOf mv = p.owed ∧
      (q.owed = [] ∧ (s.move m cfg mv).numbered = s.numbered ∨
        ∃ c, p.owed = [] ∧ q.owed = [c] ∧ (s.move m cfg mv).numbered = s.numbered ++ [c]) := by
  cases mv with
  | cancel =>
    have hcancel : s.cancel.workers = s.workers ∧ s.cancel.visits = s.visits := by
      unfold cancel
      split
      · exact ⟨rfl, rfl⟩
      · obtain ⟨r, hr⟩ := stop_eq s .main .stopped
        rw [hr]
        exact ⟨rfl, rfl⟩
    exact Or.inl ⟨rfl, hcancel.1, numbered_of_visits hcancel.2⟩
  | work w pick =>
    obtain ⟨g', ht⟩ := step_transition m cfg s g w pick hr.sound hr.workers
    rw [show s.move m cfg (.work w pick) = s.step m cfg w pick from rfl]
    generalize s.step m cfg w pick = s' at ht ⊢
    cases ht with
    | rest h => exact Or.inl ⟨congrArg Phase.owed h, rfl, rfl⟩
    | visit hw =>
      exact Or.inr ⟨w, _, _, hw, rfl, congrArg Phase.owed (phase_eq hw), Or.inr ⟨_, rfl, rfl, numbered_cons hr rfl⟩⟩
    | start hw | take hw | wait hw | leave hw | present hw | outside hw | deep hw | enumerate hw | complete hw | skip hw
    | known hw | discover hw | judge hw | note hw | give hw | crash hw =>
      exact Or.inr ⟨w, _, _, hw, rfl, congrArg Phase.owed (phase_eq hw), Or.inl ⟨rfl, rfl⟩⟩

theorem seed_numbered (hseed : (seed m cfg).1 = .ok ()) :
    (seed m cfg).2.workers.flatMap Phase.owed = [] ∧ (seed m cfg).2.numbered = [] := by
  obtain ⟨g, hs⟩ := seed_seeded hseed
  constructor
  · rw [List.flatMap_eq_nil_iff]
    intro p hp
    rw [hs.starting p hp]
    rfl
  · have hvisits : (seed m cfg).2.visits = (blank m cfg).visits := seed_keeps Search.visits (fun _ _ _ _ _ _ => rfl) hseed
    exact numbered_of_visits hvisits

/-- What holds of no calls when the workers start, and is kept by moves and the calls they make, holds of every run. -/
theorem calls_induction {P : List (VisitorCall σ) → Search σ α → Prop} (hseed : (seed m cfg).1 = .ok ())
    (hstart : P [] (seed m cfg).2)
    (hmove : ∀ cs s g mv, Reached m cfg s g → P cs s → P (cs ++ s.callsOf mv) (s.move m cfg mv)) (moves : List Move) :
    P (calls m cfg moves) (after m cfg moves) := by
  induction moves using List.reverseRecOn with
  | nil =>
    rw [calls_nil, after, play, List.foldl_nil]
    exact hstart
  | append_singleton moves mv ih =>
    obtain ⟨g, hr, -⟩ := after_reached hseed moves
    rw [calls_concat, after_concat]
    exact hmove _ _ g mv hr ih

/-- The calls made, with those that are owed, are the visits. -/
theorem calls_perm (hseed : (seed m cfg).1 = .ok ()) (moves : List Move) :
    (calls m cfg moves ++ (after m cfg moves).workers.flatMap Phase.owed).Perm (after m cfg moves).numbered := by
  obtain ⟨howed, hnum⟩ := seed_numbered hseed
  refine calls_induction (P := fun cs s => (cs ++ s.workers.flatMap Phase.owed).Perm s.numbered) hseed ?_ ?_ moves
  · rw [howed, hnum, List.append_nil]
  · intro cs s g mv hr ih
    rcases hr.owed mv with ⟨hcall, hws, hnum⟩ | ⟨w, p, q, hw, hws, hcall, hcase⟩
    · rw [hcall, hws, hnum, List.append_nil]
      exact ih
    · have hset := flatMap_set_perm Phase.owed q hw
      rw [hcall, hws, List.append_assoc]
      refine (hset.append_left cs).trans ?_
      rcases hcase with ⟨hq, hnum⟩ | ⟨c, -, hq, hnum⟩
      · rw [hq, hnum, List.nil_append]
        exact ih
      · rw [hq, hnum]
        exact List.perm_middle.trans ((ih.cons c).trans (List.perm_append_singleton c _).symm)

/-- A single worker makes its calls in the order of the visits. -/
theorem calls_solo (h1 : cfg.workers ≤ 1) (hseed : (seed m cfg).1 = .ok ()) (moves : List Move) :
    calls m cfg moves ++ (after m cfg moves).workers.flatMap Phase.owed = (after m cfg moves).numbered := by
  obtain ⟨howed, hnum⟩ := seed_numbered hseed
  refine calls_induction (P := fun cs s => cs ++ s.workers.flatMap Phase.owed = s.numbered) hseed ?_ ?_ moves
  · rw [howed, hnum, List.append_nil]
  · intro cs s g mv hr ih
    rcases hr.owed mv with ⟨hcall, hws, hnum⟩ | ⟨w, p, q, hw, hws, hcall, hcase⟩
    · rw [hcall, hws, hnum, List.append_nil]
      exact ih
    · rw [hr.solo h1] at hw hws ih
      obtain rfl : w = 0 := Nat.lt_one_iff.1 (List.getElem?_eq_some_iff.1 hw).1
      obtain rfl : s.phase 0 = p := Option.some.inj hw
      rw [List.flatMap_singleton] at ih
      rw [hcall, hws, List.set_cons_zero, List.flatMap_singleton]
      rcases hcase with ⟨hq, hnum⟩ | ⟨c, hp, hq, hnum⟩
      · rw [hq, hnum, List.append_nil]
        exact ih
      · rw [hp, List.append_nil] at ih
        rw [hp, hq, hnum, List.append_nil, ih]

/-- **Visits are calls of the visitor**: once a search is over, the visitor was called once for each visit, with its number
among the visits. A single worker also calls it in their order. -/
theorem visits_are_calls (hseed : (seed m cfg).1 = .ok ()) {moves : List Move} (hdone : (after m cfg moves).done = true) :
    (calls m cfg moves).Perm (after m cfg moves).numbered ∧
      (cfg.workers ≤ 1 → calls m cfg moves = (after m cfg moves).numbered) := by
  have howed := flatMap_of_done hdone Phase.owed rfl
  constructor
  · have hperm := calls_perm hseed moves
    rwa [howed, List.append_nil] at hperm
  · intro h1
    have hsolo := calls_solo h1 hseed moves
    rwa [howed, List.append_nil] at hsolo

theorem map_numbered (s : Search σ α) : (s.numbered.map fun c => (c.state, c.fp)) = s.visitList := by
  rw [numbered, List.map_map]
  exact List.zipIdx_map_fst 1 s.visitList

/-- An undisturbed search calls the visitor once for each reachable state. -/
theorem Undisturbed.calls_perm (hm : m.Total) (hinj : Set.InjOn m.fingerprint {t | m.Reachable t}) {R : Finset σ}
    (hR : ∀ t, t ∈ R ↔ m.Reachable t) {moves : List Move} (hu : Undisturbed m cfg moves) :
    ((calls m cfg moves).map fun c => (c.state, c.fp)).Perm (R.toList.map fun t => (t, m.fingerprint t)) := by
  obtain ⟨g, hr, hroots⟩ := after_reached (seed_ok hm cfg) moves
  have hcovers := hr.covers hinj hroots hR hu.unbounded hu.done hu.unstopped
  have hcalls := (visits_are_calls (seed_ok hm cfg) hu.done).1.map fun c => (c.state, c.fp)
  rw [map_numbered] at hcalls
  exact hcalls.trans hcovers.visits

end Search

end StateSpace
