import Mathlib.Data.List.Basic
import StateSpace.Path

/-!
# Replaying runs

* `Path.IsRun m p` : `p` is a run of the model whose states but the last are within the boundary;
* `Along.step_at` : the step at a position; `IsRun.stable` : what steps keep holds from any position of a run on;
  `IsRun.lead` : what steps pass on holds at its end;
* `Model.unbounded m` : the model without its boundary, whose runs go on from any state;
* `Model.Selects m s fp a t` : `a` is the first enabled action that leads from `s` to a state with the fingerprint, and it
  leads to `t`; `selectStep_eq_some_iff` : the selection finds just that; `selectStep_eq_some` : it does if one of the
  actions leads to the fingerprint and none before it raises a fault;
* `Path.Foremost m p` : `p` starts in the first initial state with its fingerprint, and each further fingerprint selects its
  step; `replay_eq_some_iff` : the replay of a chain is the foremost path that has it;
* `replay_push` : a replay goes on by one step; `Path.IsRun.push` : so does a run.
-/

namespace StateSpace

def Model.unbounded {σ α : Type} (m : Model σ α) : Model σ α := { m with withinBoundary := fun _ => .ok true }

theorem Model.step_unbounded {σ α : Type} {m : Model σ α} {s t : σ} {a : α} : m.unbounded.Step s a t ↔ m.Step s a t :=
  Iff.rfl

/-- The action raises no fault in `s`, and leads to no state with the fingerprint. -/
def Model.Misses {σ α : Type} (m : Model σ α) (s : σ) (fp : Fingerprint) (a : α) : Prop :=
  ∃ next, m.next s a = .ok next ∧ ∀ t, next = some t → m.fingerprint t ≠ fp

/-- The action is the first of those enabled in `s` that leads to a state with the fingerprint, and leads to `t`. -/
def Model.Selects {σ α : Type} (m : Model σ α) (s : σ) (fp : Fingerprint) (a : α) (t : σ) : Prop :=
  ∃ before after, m.actions s = .ok (before ++ a :: after) ∧ (∀ b ∈ before, m.Misses s fp b) ∧
    m.next s a = .ok (some t) ∧ m.fingerprint t = fp

theorem Model.Selects.step {σ α : Type} {m : Model σ α} {s t : σ} {fp : Fingerprint} {a : α} (h : m.Selects s fp a t) :
    m.Step s a t := by
  obtain ⟨before, after, has, -, ht, -⟩ := h
  exact ⟨⟨_, has, List.mem_append_right _ List.mem_cons_self⟩, ht⟩

theorem Model.Selects.fingerprint_eq {σ α : Type} {m : Model σ α} {s t : σ} {fp : Fingerprint} {a : α}
    (h : m.Selects s fp a t) : m.fingerprint t = fp := by
  obtain ⟨-, -, -, -, -, hfp⟩ := h
  exact hfp

namespace Path

variable {σ α : Type} {m : Model σ α}

/-- The steps lead from `s` along enabled actions, each from a state within the boundary. -/
def Along (m : Model σ α) : σ → List (α × σ) → Prop
  | _, [] => True
  | s, (a, t) :: rest => m.withinBoundary s = .ok true ∧ m.Step s a t ∧ Along m t rest

/-- A run from an initial state, all of whose states but the last are within the boundary. -/
structure IsRun (m : Model σ α) (p : Path σ α) : Prop where
  init_mem : p.init ∈ m.initStates
  along : Along m p.init p.steps

@[simp] theorem last_push (p : Path σ α) (a : α) (t : σ) : (p.push a t).last = t := by
  simp [push, last]

theorem size_push (p : Path σ α) (a : α) (t : σ) : (p.push a t).size = p.size + 1 := by
  simp [push, size]

theorem last_cons (s t : σ) (a : α) (steps : List (α × σ)) :
    (⟨s, (a, t) :: steps⟩ : Path σ α).last = (⟨t, steps⟩ : Path σ α).last := by
  unfold last
  cases steps with
  | nil => rfl
  | cons x steps => rw [List.getLast?_cons_cons]; simp [List.getLast?_cons]

theorem isRun_single {s : σ} (h : s ∈ m.initStates) : IsRun m (single s) := ⟨h, trivial⟩

theorem Along.concat {s t : σ} {a : α} {steps : List (α × σ)} (h : Along m s steps)
    (hb : m.withinBoundary (⟨s, steps⟩ : Path σ α).last = .ok true) (ht : m.Step (⟨s, steps⟩ : Path σ α).last a t) :
    Along m s (steps ++ [(a, t)]) := by
  induction steps generalizing s with
  | nil => exact ⟨hb, ht, trivial⟩
  | cons x steps ih =>
    obtain ⟨b, u⟩ := x
    rw [last_cons] at hb ht
    exact ⟨h.1, h.2.1, ih h.2.2 hb ht⟩

theorem IsRun.push {p : Path σ α} (h : IsRun m p) {a : α} {t : σ} (hb : m.withinBoundary p.last = .ok true)
    (ht : m.Step p.last a t) : IsRun m (p.push a t) :=
  ⟨h.init_mem, h.along.concat hb ht⟩

/-! ## What runs keep -/

theorem Along.reachable {s : σ} {steps : List (α × σ)} (hs : m.Reachable s) (h : Along m s steps) :
    ∀ t ∈ (⟨s, steps⟩ : Path σ α).states, m.Reachable t := by
  induction steps generalizing s with
  | nil =>
    intro t ht
    rwa [List.mem_singleton.1 ht]
  | cons x steps ih =>
    intro t ht
    rcases List.mem_cons.1 ht with rfl | ht
    · exact hs
    · exact ih (hs.step h.1 h.2.1) h.2.2 t ht

theorem Along.stable {P : σ → Prop} (hP : ∀ s a t, m.Reachable s → m.Step s a t → P s → P t) {s : σ}
    {steps : List (α × σ)} (hs : m.Reachable s) (h : Along m s steps) {i j : Nat} (hij : i ≤ j) {u v : σ}
    (hu : (⟨s, steps⟩ : Path σ α).states[i]? = some u) (hv : (⟨s, steps⟩ : Path σ α).states[j]? = some v) (hPu : P u) :
    P v := by
  induction steps generalizing s i j u with
  | nil =>
    have hj : j = 0 := by
      have := (List.getElem?_eq_some_iff.1 hv).1
      simp only [states, List.map_nil, List.length_cons, List.length_nil] at this
      omega
    have hi : i = 0 := by omega
    subst hi hj
    cases hu
    cases hv
    exact hPu
  | cons x steps ih =>
    cases j with
    | zero =>
      have hi : i = 0 := by omega
      subst hi
      cases hu
      cases hv
      exact hPu
    | succ j =>
      cases i with
      | zero =>
        -- the property passes on to the next state, from which the rest goes
        cases hu
        exact ih (hs.step h.1 h.2.1) h.2.2 (Nat.zero_le j) rfl hv (hP _ _ _ hs h.2.1 hPu)
      | succ i => exact ih (hs.step h.1 h.2.1) h.2.2 (Nat.le_of_succ_le_succ hij) hu hv hPu

/-- What each step from a state within the boundary passes on, with the number of steps, holds at the end. -/
theorem Along.lead {P : σ → Nat → Prop}
    (hP : ∀ s a t n, m.withinBoundary s = .ok true → m.Step s a t → P s n → P t (n + 1)) {s : σ} {steps : List (α × σ)}
    (h : Along m s steps) {n : Nat} (hs : P s n) : P (⟨s, steps⟩ : Path σ α).last (n + steps.length) := by
  induction steps generalizing s n with
  | nil => exact hs
  | cons x steps ih =>
    obtain ⟨a, t⟩ := x
    rw [last_cons, List.length_cons, Nat.add_comm steps.length, ← Nat.add_assoc]
    exact ih h.2.2 (hP s a t n h.1 h.2.1 hs)

/-- The action at a position leads from the state there to the next one. -/
theorem Along.step_at {s : σ} {steps : List (α × σ)} (h : Along m s steps) {k : Nat} {u : σ} {a : α}
    (hu : (⟨s, steps⟩ : Path σ α).states[k]? = some u) (ha : (⟨s, steps⟩ : Path σ α).actions[k]? = some a) :
    ∃ t, (⟨s, steps⟩ : Path σ α).states[k + 1]? = some t ∧ m.Step u a t := by
  induction steps generalizing s k with
  | nil => simp [actions] at ha
  | cons x steps ih =>
    cases k with
    | zero =>
      cases hu
      cases ha
      exact ⟨x.2, rfl, h.2.1⟩
    | succ k => exact ih h.2.2 hu ha

theorem IsRun.reachable {p : Path σ α} (h : IsRun m p) {i : Nat} {s : σ} (hs : p.states[i]? = some s) : m.Reachable s :=
  h.along.reachable (.init h.init_mem) s (List.mem_of_getElem? hs)

/-- **Stable properties**: what steps from reachable states keep holds at every later position of a run. -/
theorem IsRun.stable {p : Path σ α} (h : IsRun m p) {P : σ → Prop}
    (hP : ∀ s a t, m.Reachable s → m.Step s a t → P s → P t) {i j : Nat} (hij : i ≤ j) {u v : σ}
    (hu : p.states[i]? = some u) (hv : p.states[j]? = some v) (hPu : P u) : P v :=
  h.along.stable hP (.init h.init_mem) hij hu hv hPu

/-- What holds of the initial states, and is passed on by each step, holds of the last state of a run. -/
theorem IsRun.lead {p : Path σ α} (h : IsRun m p) {P : σ → Nat → Prop} (hinit : ∀ t ∈ m.initStates, P t 0)
    (hP : ∀ s a t n, m.withinBoundary s = .ok true → m.Step s a t → P s n → P t (n + 1)) : P p.last p.steps.length := by
  have hlast := h.along.lead hP (hinit p.init h.init_mem)
  rwa [Nat.zero_add] at hlast

theorem IsRun.last_reachable {p : Path σ α} (h : IsRun m p) : m.Reachable p.last :=
  h.lead (P := fun t _ => m.Reachable t) (fun _ ht => .init ht) fun _ _ _ _ hb hstep hs => hs.step hb hstep

/-! ## Selecting a step -/

theorem ok_bind {ε β γ : Type} (x : β) (f : β → Except ε γ) : (Except.ok x >>= f) = f x := rfl

theorem exists_of_bind_eq_ok {ε β γ : Type} {x : Except ε β} {f : β → Except ε γ} {r : γ} (h : (x >>= f) = .ok r) :
    ∃ y, x = .ok y ∧ f y = .ok r := by
  cases x with
  | error e => cases h
  | ok y => exact ⟨y, rfl, h⟩

section

variable {s t : σ} {fp : Fingerprint} {a : α} {as : List α}

theorem selectStep_cons (ht : m.next s a = .ok (some t)) :
    selectStep m s fp (a :: as) = if m.fingerprint t = fp then return some (a, t) else selectStep m s fp as := by
  rw [selectStep, ht, ok_bind]

theorem selectStep_of_hits (ht : m.next s a = .ok (some t)) (hfp : m.fingerprint t = fp) (as : List α) :
    selectStep m s fp (a :: as) = .ok (some (a, t)) := by
  rw [selectStep_cons ht, if_pos hfp]
  rfl

theorem selectStep_of_misses (h : m.Misses s fp a) (as : List α) : selectStep m s fp (a :: as) = selectStep m s fp as := by
  obtain ⟨next, hnext, hmiss⟩ := h
  cases next with
  | none => rw [selectStep, hnext, ok_bind]
  | some t => rw [selectStep_cons hnext, if_neg (hmiss t rfl)]

theorem selectStep_append {before : List α} (h : ∀ b ∈ before, m.Misses s fp b) (after : List α) :
    selectStep m s fp (before ++ after) = selectStep m s fp after := by
  induction before with
  | nil => rfl
  | cons b before ih =>
    rw [List.cons_append, selectStep_of_misses (h b List.mem_cons_self)]
    exact ih fun c hc => h c (List.mem_cons_of_mem _ hc)

theorem hits_or_misses (h : ∃ next, m.next s a = .ok next) (fp : Fingerprint) :
    (∃ t, m.next s a = .ok (some t) ∧ m.fingerprint t = fp) ∨ m.Misses s fp a := by
  obtain ⟨next, hnext⟩ := h
  by_cases hit : ∃ t, next = some t ∧ m.fingerprint t = fp
  · obtain ⟨t, rfl, hfp⟩ := hit
    exact Or.inl ⟨t, hnext, hfp⟩
  · exact Or.inr ⟨next, hnext, fun t ht hfp => hit ⟨t, ht, hfp⟩⟩

/-- The selection finds the first action that leads to the fingerprint. -/
theorem selectStep_eq_some_iff : selectStep m s fp as = .ok (some (a, t)) ↔ ∃ before after, as = before ++ a :: after ∧
    (∀ b ∈ before, m.Misses s fp b) ∧ m.next s a = .ok (some t) ∧ m.fingerprint t = fp := by
  constructor
  · intro h
    induction as with
    | nil => cases h
    | cons b as ih =>
      obtain ⟨next, hnext, -⟩ := exists_of_bind_eq_ok h
      rcases hits_or_misses ⟨next, hnext⟩ fp with ⟨u, hu, hfp⟩ | hmiss
      · rw [selectStep_of_hits hu hfp] at h
        cases h
        exact ⟨[], as, rfl, fun c hc => absurd hc List.not_mem_nil, hu, hfp⟩
      · rw [selectStep_of_misses hmiss] at h
        obtain ⟨before, after, rfl, hbefore, ht⟩ := ih h
        exact ⟨b :: before, after, rfl, List.forall_mem_cons.2 ⟨hmiss, hbefore⟩, ht⟩
  · rintro ⟨before, after, rfl, hbefore, ht, hfp⟩
    rw [selectStep_append hbefore, selectStep_of_hits ht hfp]

/-- Among actions that raise no fault the selection finds one, or they all miss. -/
theorem selectStep_cases {before : List α} (h : ∀ b ∈ before, ∃ next, m.next s b = .ok next) (fp : Fingerprint)
    (after : List α) :
    (∃ a t, selectStep m s fp (before ++ after) = .ok (some (a, t))) ∨ ∀ b ∈ before, m.Misses s fp b := by
  induction before with
  | nil => exact Or.inr fun b hb => absurd hb List.not_mem_nil
  | cons b before ih =>
    obtain ⟨hb, hrest⟩ := List.forall_mem_cons.1 h
    rcases hits_or_misses hb fp with ⟨t, ht, hfp⟩ | hmiss
    · exact Or.inl ⟨b, t, selectStep_of_hits ht hfp _⟩
    · rw [List.cons_append, selectStep_of_misses hmiss]
      exact (ih hrest).imp_right fun hall => List.forall_mem_cons.2 ⟨hmiss, hall⟩

theorem selectStep_eq_some {before : List α} (after : List α) (hbefore : ∀ b ∈ before, ∃ next, m.next s b = .ok next)
    (ht : m.next s a = .ok (some t)) (hfp : m.fingerprint t = fp) :
    ∃ b u, selectStep m s fp (before ++ a :: after) = .ok (some (b, u)) ∧
      b ∈ before ++ a :: after ∧ m.next s b = .ok (some u) ∧ m.fingerprint u = fp := by
  have hfound : ∃ b u, selectStep m s fp (before ++ a :: after) = .ok (some (b, u)) := by
    rcases selectStep_cases hbefore fp (a :: after) with hfound | hmiss
    · exact hfound
    · exact ⟨a, t, by rw [selectStep_append hmiss, selectStep_of_hits ht hfp]⟩
  obtain ⟨b, u, hsel⟩ := hfound
  obtain ⟨front, back, heq, -, hu, hfpu⟩ := selectStep_eq_some_iff.1 hsel
  refine ⟨b, u, hsel, ?_, hu, hfpu⟩
  rw [heq]
  exact List.mem_append_right _ List.mem_cons_self

end

/-! ## Following a chain -/

/-- Each step is the one that the fingerprint of its state selects. -/
def Chosen (m : Model σ α) : σ → List (α × σ) → Prop
  | _, [] => True
  | s, (a, t) :: rest => m.Selects s (m.fingerprint t) a t ∧ Chosen m t rest

theorem follow_cons {s : σ} {fp : Fingerprint} {fps : List Fingerprint} {as : List α} {a : α} {t : σ}
    (has : m.actions s = .ok as) (hsel : selectStep m s fp as = .ok (some (a, t))) :
    follow m s (fp :: fps) = (do return (← follow m t fps).map ((a, t) :: ·)) := by
  rw [follow, has]
  show (selectStep m s fp as >>= _) = _
  rw [hsel]
  rfl

theorem follow_cons_eq_some_iff {s : σ} {fp : Fingerprint} {fps : List Fingerprint} {steps : List (α × σ)} :
    follow m s (fp :: fps) = .ok (some steps) ↔
      ∃ a t rest, steps = (a, t) :: rest ∧ m.Selects s fp a t ∧ follow m t fps = .ok (some rest) := by
  constructor
  · intro h
    rw [follow] at h
    obtain ⟨as, has, hacts⟩ := exists_of_bind_eq_ok h
    obtain ⟨found, hsel, hfound⟩ := exists_of_bind_eq_ok hacts
    cases found with
    | none => cases hfound
    | some step =>
      obtain ⟨a, t⟩ := step
      obtain ⟨rest, hrest, hsteps⟩ := exists_of_bind_eq_ok hfound
      obtain ⟨before, after, rfl, hselects⟩ := selectStep_eq_some_iff.1 hsel
      cases rest with
      | none => cases hsteps
      | some rest =>
        cases hsteps
        exact ⟨a, t, rest, rfl, ⟨before, after, has, hselects⟩, hrest⟩
  · rintro ⟨a, t, rest, rfl, ⟨before, after, has, hselects⟩, hrest⟩
    rw [follow_cons has (selectStep_eq_some_iff.2 ⟨before, after, rfl, hselects⟩), hrest]
    rfl

/-- A chain is followed by the steps that its fingerprints select. -/
theorem follow_eq_some_iff {s : σ} {fps : List Fingerprint} {steps : List (α × σ)} :
    follow m s fps = .ok (some steps) ↔ Chosen m s steps ∧ steps.map (fun x => m.fingerprint x.2) = fps := by
  induction fps generalizing s steps with
  | nil =>
    rw [List.map_eq_nil_iff]
    constructor
    · intro h
      cases h
      exact ⟨trivial, rfl⟩
    · rintro ⟨-, rfl⟩
      rfl
  | cons fp fps ih =>
    rw [follow_cons_eq_some_iff]
    constructor
    · rintro ⟨a, t, rest, rfl, hsel, hrest⟩
      obtain ⟨hchosen, rfl⟩ := ih.1 hrest
      have hfp := hsel.fingerprint_eq
      subst hfp
      exact ⟨⟨hsel, hchosen⟩, rfl⟩
    · rintro ⟨hchosen, hfps⟩
      cases steps with
      | nil => cases hfps
      | cons x rest =>
        obtain ⟨a, t⟩ := x
        cases hfps
        exact ⟨a, t, rest, rfl, hchosen.1, ih.2 ⟨hchosen.2, rfl⟩⟩

theorem Chosen.concat {s t : σ} {a : α} {steps : List (α × σ)} (h : Chosen m s steps)
    (ht : m.Selects (⟨s, steps⟩ : Path σ α).last (m.fingerprint t) a t) : Chosen m s (steps ++ [(a, t)]) := by
  induction steps generalizing s with
  | nil => exact ⟨ht, trivial⟩
  | cons x steps ih =>
    obtain ⟨b, u⟩ := x
    rw [last_cons] at ht
    exact ⟨h.1, ih h.2 ht⟩

/-! ## Replaying a chain -/

/-- The path starts in the first initial state with its fingerprint, and each further fingerprint selects its step. -/
structure Foremost (m : Model σ α) (p : Path σ α) : Prop where
  init : m.initStates.find? (m.fingerprint · = m.fingerprint p.init) = some p.init
  steps : Chosen m p.init p.steps

theorem fingerprints_eq (m : Model σ α) (p : Path σ α) :
    p.fingerprints m = m.fingerprint p.init :: p.steps.map fun x => m.fingerprint x.2 := by
  rw [fingerprints, states, List.map_cons, List.map_map]
  rfl

theorem fingerprints_push (m : Model σ α) (p : Path σ α) (a : α) (t : σ) :
    (p.push a t).fingerprints m = p.fingerprints m ++ [m.fingerprint t] := by
  rw [fingerprints_eq, fingerprints_eq, push, List.map_append, List.cons_append]
  rfl

theorem find?_init {s : σ} (hs : s ∈ m.initStates)
    (hone : ∀ t ∈ m.initStates, m.fingerprint t = m.fingerprint s → t = s) :
    m.initStates.find? (m.fingerprint · = m.fingerprint s) = some s := by
  cases hf : m.initStates.find? (m.fingerprint · = m.fingerprint s) with
  | none =>
    have hno := List.find?_eq_none.1 hf s hs
    simp at hno
  | some t => rw [hone t (List.mem_of_find?_eq_some hf) (by simpa using List.find?_some hf)]

theorem replay_cons {s : σ} {fp : Fingerprint} (fps : List Fingerprint)
    (h : m.initStates.find? (m.fingerprint · = fp) = some s) :
    replay m (fp :: fps) = (do return (← follow m s fps).map (Path.mk s)) := by
  rw [replay, h]

/-- **The replay of a chain** is the foremost path that has its fingerprints. -/
theorem replay_eq_some_iff {fps : List Fingerprint} {p : Path σ α} :
    replay m fps = .ok (some p) ↔ p.Foremost m ∧ p.fingerprints m = fps := by
  rw [fingerprints_eq]
  constructor
  · intro h
    cases fps with
    | nil => cases h
    | cons fp fps =>
      cases hf : m.initStates.find? (m.fingerprint · = fp) with
      | none =>
        rw [replay, hf] at h
        cases h
      | some s =>
        rw [replay_cons fps hf] at h
        obtain ⟨found, hfollow, h⟩ := exists_of_bind_eq_ok h
        cases found with
        | none => cases h
        | some steps =>
          cases h
          obtain ⟨hchosen, rfl⟩ := follow_eq_some_iff.1 hfollow
          have hfp : m.fingerprint s = fp := by simpa using List.find?_some hf
          rw [← hfp] at hf
          exact ⟨⟨hf, hchosen⟩, by rw [hfp]⟩
  · rintro ⟨hp, rfl⟩
    rw [replay_cons _ hp.init, follow_eq_some_iff.2 ⟨hp.steps, rfl⟩]
    rfl

theorem Foremost.push {p : Path σ α} (h : p.Foremost m) {a : α} {t : σ} (ht : m.Selects p.last (m.fingerprint t) a t) :
    (p.push a t).Foremost m :=
  ⟨h.init, h.steps.concat ht⟩

theorem replay_single {s : σ} {fp : Fingerprint} (hs : s ∈ m.initStates) (hfp : m.fingerprint s = fp)
    (hone : ∀ t ∈ m.initStates, m.fingerprint t = fp → t = s) : replay m [fp] = .ok (some (single s)) := by
  subst hfp
  exact replay_eq_some_iff.2 ⟨⟨find?_init hs hone, trivial⟩, rfl⟩

/-- A replay goes on by the step that is selected from its last state. -/
theorem replay_push {fps : List Fingerprint} {p : Path σ α} {fp : Fingerprint} {as : List α} {a : α} {t : σ}
    (h : replay m fps = .ok (some p)) (has : m.actions p.last = .ok as)
    (hsel : selectStep m p.last fp as = .ok (some (a, t))) : replay m (fps ++ [fp]) = .ok (some (p.push a t)) := by
  obtain ⟨hp, rfl⟩ := replay_eq_some_iff.1 h
  obtain ⟨before, after, rfl, hbefore, ht, rfl⟩ := selectStep_eq_some_iff.1 hsel
  exact replay_eq_some_iff.2 ⟨hp.push ⟨before, after, has, hbefore, ht, rfl⟩, fingerprints_push m p a t⟩

end Path

end StateSpace
