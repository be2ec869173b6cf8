import StateSpace.Proofs.Lists
import StateSpace.Systems.TwoPhaseCommit

/-!
# Two-phase commit, one resource manager at a time

What the protocol knows of a resource manager is its `Stance`: its state, whether it has announced that it is prepared, and
whether the transaction manager has heard so. The states that matter are those which `assemble` puts together from the
state of the transaction manager and the stances.

* `Shift tm k x y` : an action of kind `k` that concerns one resource manager takes its stance from `x` to `y`;
* `Turn a c c'` : an action takes one configuration to another, by a shift of one stance or a decision;
* `step_assemble` : the steps of the model from an assembled state are the turns.
-/

namespace StateSpace

namespace Sorted

variable {α : Type} [Ord α]

theorem insertNew_of_lt {x : α} {ys : List α} (h : ∀ y ∈ ys, compare x y = .lt) : insertNew x ys = x :: ys := by
  cases ys with
  | nil => rfl
  | cons y ys => rw [insertNew, h y List.mem_cons_self]

theorem insertNew_of_gt {x : α} {ys : List α} (h : ∀ y ∈ ys, compare x y = .gt) : insertNew x ys = ys ++ [x] := by
  induction ys with
  | nil => rfl
  | cons y ys ih =>
    rw [insertNew, h y List.mem_cons_self]
    show y :: insertNew x ys = _
    rw [ih fun z hz => h z (List.mem_cons_of_mem _ hz), List.cons_append]

end Sorted

namespace TwoPhase

/-! ## Stances -/

/-- The state of a resource manager, whether it has announced that it is prepared, and whether that was heard. -/
structure Stance where
  rm : RmState
  sent : Bool
  heard : Bool
  deriving DecidableEq, Repr

/-- The announcements of resource managers that are numbered from `first`. -/
def notices (first : Nat) : List Stance → List Message
  | [] => []
  | x :: xs => if x.sent then .prepared first :: notices (first + 1) xs else notices (first + 1) xs

def decision : TmState → List Message
  | .init => []
  | .committed => [.commit]
  | .aborted => [.abort]

/-- The state in which the managers have the given states and stances. -/
def assemble (tm : TmState) (xs : List Stance) : State :=
  ⟨xs.map Stance.rm, tm, xs.map Stance.heard, notices 0 xs ++ decision tm⟩

theorem mem_notices {first : Nat} {xs : List Stance} {m : Message} :
    m ∈ notices first xs ↔ ∃ i x, xs[i]? = some x ∧ x.sent = true ∧ m = .prepared (first + i) := by
  induction xs generalizing first with
  | nil => simp [notices]
  | cons x xs ih =>
    have htail : m ∈ notices (first + 1) xs ↔
        ∃ i y, (x :: xs)[i + 1]? = some y ∧ y.sent = true ∧ m = .prepared (first + (i + 1)) := by
      simp only [ih, List.getElem?_cons_succ, Nat.add_assoc, Nat.add_comm 1]
    have hsplit : (∃ i y, (x :: xs)[i]? = some y ∧ y.sent = true ∧ m = .prepared (first + i)) ↔
        (x.sent = true ∧ m = .prepared first) ∨ m ∈ notices (first + 1) xs := by
      rw [htail]
      constructor
      · rintro ⟨i, y, hy, hs, hm⟩
        cases i with
        | zero =>
          cases hy
          exact Or.inl ⟨hs, hm⟩
        | succ i => exact Or.inr ⟨i, y, hy, hs, hm⟩
      · rintro (⟨hs, hm⟩ | ⟨i, y, hy, hs, hm⟩)
        · exact ⟨0, x, rfl, hs, hm⟩
        · exact ⟨i + 1, y, hy, hs, hm⟩
    rw [hsplit, notices]
    by_cases hs : x.sent = true <;> simp [hs]

theorem prepared_mem_notices {xs : List Stance} {i : Nat} :
    Message.prepared i ∈ notices 0 xs ↔ ∃ x, xs[i]? = some x ∧ x.sent = true := by
  rw [mem_notices]
  constructor
  · rintro ⟨j, x, hx, hs, hm⟩
    rw [Nat.zero_add, Message.prepared, Message.prepared, Message.mk.injEq] at hm
    rw [hm.2]
    exact ⟨x, hx, hs⟩
  · rintro ⟨x, hx, hs⟩
    exact ⟨i, x, hx, hs, by rw [Nat.zero_add]⟩

theorem notices_set {xs : List Stance} {i : Nat} {x y : Stance} (hx : xs[i]? = some x) (hs : y.sent = x.sent)
    (first : Nat) : notices first (xs.set i y) = notices first xs := by
  induction xs generalizing first i with
  | nil => rfl
  | cons z xs ih =>
    cases i with
    | zero =>
      cases hx
      rw [List.set_cons_zero, notices, notices, hs]
    | succ i => rw [List.set_cons_succ, notices, notices, ih hx]

/-! ## Messages in order -/

theorem compare_prepared (i j : Nat) : compare (Message.prepared i) (Message.prepared j) = compare i j := rfl

theorem compare_prepared_decision {m : Message} {tm : TmState} (h : m ∈ decision tm) (i : Nat) :
    compare (Message.prepared i) m = .lt := by
  cases tm with
  | init => cases h
  | committed => rw [List.mem_singleton.1 h]; rfl
  | aborted => rw [List.mem_singleton.1 h]; rfl

theorem insertNew_prepared (tm : TmState) {xs : List Stance} {i : Nat} {x y : Stance} (hx : xs[i]? = some x)
    (hy : y.sent = true) (first : Nat) :
    Sorted.insertNew (.prepared (first + i)) (notices first xs ++ decision tm) =
      notices first (xs.set i y) ++ decision tm := by
  induction xs generalizing first i with
  | nil => cases hx
  | cons z xs ih =>
    cases i with
    | zero =>
      rw [List.set_cons_zero, notices, notices, if_pos hy, Nat.add_zero]
      by_cases hz : z.sent = true
      · rw [if_pos hz, List.cons_append, Sorted.insertNew, compare_prepared, Nat.compare_eq_eq.2 rfl]
      · rw [if_neg hz, List.cons_append, Sorted.insertNew_of_lt]
        intro m hm
        rcases List.mem_append.1 hm with hm | hm
        · obtain ⟨j, -, -, -, rfl⟩ := mem_notices.1 hm
          rw [compare_prepared, Nat.compare_eq_lt]
          omega
        · exact compare_prepared_decision hm first
    | succ i =>
      have hrest := ih (i := i) hx (first + 1)
      rw [show first + 1 + i = first + (i + 1) by omega] at hrest
      rw [List.set_cons_succ, notices, notices]
      by_cases hz : z.sent = true
      · have hgt : compare (first + (i + 1)) first = .gt := by
          rw [Nat.compare_eq_gt]
          omega
        rw [if_pos hz, if_pos hz, List.cons_append, List.cons_append, Sorted.insertNew, compare_prepared, hgt, ← hrest]
      · rw [if_neg hz, if_neg hz, hrest]

theorem insertNew_decision {m : Message} {tm : TmState} (h : decision tm = [m]) (xs : List Stance) :
    Sorted.insertNew m (notices 0 xs ++ decision .init) = notices 0 xs ++ decision tm := by
  rw [decision, List.append_nil, h]
  apply Sorted.insertNew_of_gt
  intro m' hm'
  obtain ⟨i, -, -, -, rfl⟩ := mem_notices.1 hm'
  cases tm with
  | init => cases h
  | committed => cases h; rfl
  | aborted => cases h; rfl

/-! ## Turns -/

/-- An action of kind `k` takes the stance of the resource manager it concerns from `x` to `y`. -/
inductive Shift (tm : TmState) : ActionKind → Stance → Stance → Prop
  | hear {x : Stance} : tm = .init → x.sent = true → Shift tm .tmRcvPrepared x { x with heard := true }
  | prepare {x : Stance} : x.rm = .working → Shift tm .rmPrepare x { x with rm := .prepared, sent := true }
  | quit {x : Stance} : x.rm = .working → Shift tm .rmChooseToAbort x { x with rm := .aborted }
  | commit {x : Stance} : tm = .committed → Shift tm .rmRcvCommit x { x with rm := .committed }
  | abort {x : Stance} : tm = .aborted → Shift tm .rmRcvAbort x { x with rm := .aborted }

/-- An action takes the managers from one configuration to another. -/
inductive Turn : Action → TmState × List Stance → TmState × List Stance → Prop
  | commit {xs : List Stance} : (∀ x ∈ xs, x.heard = true) → Turn ⟨.tmCommit, 0⟩ (.init, xs) (.committed, xs)
  | abort {xs : List Stance} : Turn ⟨.tmAbort, 0⟩ (.init, xs) (.aborted, xs)
  | shift {tm : TmState} {xs : List Stance} {k : ActionKind} {i : Nat} {x y : Stance} :
      xs[i]? = some x → Shift tm k x y → Turn ⟨k, i⟩ (tm, xs) (tm, xs.set i y)

variable {tm : TmState} {xs : List Stance}

theorem prepared_mem_assemble {i : Nat} :
    Message.prepared i ∈ (assemble tm xs).msgs ↔ ∃ x, xs[i]? = some x ∧ x.sent = true := by
  have hnone : Message.prepared i ∉ decision tm := by
    cases tm <;> simp [decision, Message.prepared, Message.commit, Message.abort]
  simp only [assemble, List.mem_append, hnone, or_false, prepared_mem_notices]

theorem mem_assemble_of_kind {m : Message} (h : m.kind ≠ .prepared) : m ∈ (assemble tm xs).msgs ↔ m ∈ decision tm := by
  have hnone : m ∉ notices 0 xs := by
    intro hm
    obtain ⟨i, -, -, -, rfl⟩ := mem_notices.1 hm
    exact h rfl
  simp only [assemble, List.mem_append, hnone, false_or]

theorem commit_mem_assemble : Message.commit ∈ (assemble tm xs).msgs ↔ tm = .committed := by
  rw [mem_assemble_of_kind (by decide)]
  cases tm <;> decide

theorem abort_mem_assemble : Message.abort ∈ (assemble tm xs).msgs ↔ tm = .aborted := by
  rw [mem_assemble_of_kind (by decide)]
  cases tm <;> decide

/-- The actions that concern a resource manager are those that can shift its stance. -/
theorem mem_actionsOf {i : Nat} {x : Stance} (hx : xs[i]? = some x) {a : Action} :
    a ∈ actionsOf (assemble tm xs) i ↔ a.rm = i ∧ ∃ y, Shift tm a.kind x y := by
  have hprepared : Message.prepared i ∈ (assemble tm xs).msgs ↔ x.sent = true := by
    rw [prepared_mem_assemble, hx]
    simp
  have hworking : (assemble tm xs).rms[i]? = some .working ↔ x.rm = .working := by
    simp [assemble, List.getElem?_map, hx]
  have htm : (assemble tm xs).tm = tm := rfl
  simp only [actionsOf, hprepared, hworking, htm, commit_mem_assemble, abort_mem_assemble, List.mem_append]
  obtain ⟨k, j⟩ := a
  constructor
  · intro h
    rcases h with ((h | h) | h) | h
    · split at h
      · cases List.mem_singleton.1 h
        exact ⟨rfl, _, .hear ‹_ ∧ _›.1 ‹_ ∧ _›.2⟩
      · cases h
    · split at h
      · rcases List.mem_pair.1 h with h | h
        · cases h
          exact ⟨rfl, _, .prepare ‹_›⟩
        · cases h
          exact ⟨rfl, _, .quit ‹_›⟩
      · cases h
    · split at h
      · cases List.mem_singleton.1 h
        exact ⟨rfl, _, .commit ‹_›⟩
      · cases h
    · split at h
      · cases List.mem_singleton.1 h
        exact ⟨rfl, _, .abort ‹_›⟩
      · cases h
  · rintro ⟨rfl, y, hy⟩
    cases hy with
    | hear ht hs => simp [ht, hs]
    | prepare hw => simp [hw]
    | quit hw => simp [hw]
    | commit ht => simp [ht]
    | abort ht => simp [ht]

/-- An action that concerns a resource manager changes its stance and nothing else. -/
theorem next_shift {k : ActionKind} {i : Nat} {x y : Stance} (hx : xs[i]? = some x) (h : Shift tm k x y) :
    next (assemble tm xs) ⟨k, i⟩ = assemble tm (xs.set i y) := by
  cases h with
  | hear =>
    simp only [next, assemble, List.map_set, map_set_self _ hx]
    rw [notices_set hx]
    rfl
  | prepare =>
    simp only [next, State.send, State.setRm, assemble, List.map_set, map_set_self _ hx]
    rw [← insertNew_prepared tm hx rfl 0, Nat.zero_add]
  | quit | commit | abort =>
    simp only [next, State.setRm, assemble, List.map_set, map_set_self _ hx]
    rw [notices_set hx]
    rfl

theorem next_commit : next (assemble .init xs) ⟨.tmCommit, 0⟩ = assemble .committed xs := by
  simp only [next, State.send, assemble, insertNew_decision (show decision .committed = [.commit] from rfl)]

theorem next_abort : next (assemble .init xs) ⟨.tmAbort, 0⟩ = assemble .aborted xs := by
  simp only [next, State.send, assemble, insertNew_decision (show decision .aborted = [.abort] from rfl)]

theorem step_iff {n : Nat} {s t : State} {a : Action} : (model n).Step s a t ↔ a ∈ actions n s ∧ t = next s a := by
  constructor
  · rintro ⟨⟨as, has, ha⟩, hnext⟩
    cases has
    cases hnext
    exact ⟨ha, rfl⟩
  · rintro ⟨ha, rfl⟩
    exact ⟨⟨_, rfl, ha⟩, rfl⟩

/-- **One step**: from an assembled state the model can do what the managers can, each by itself. -/
theorem step_assemble {a : Action} {t : State} : (model xs.length).Step (assemble tm xs) a t ↔
    ∃ c, Turn a (tm, xs) c ∧ t = assemble c.1 c.2 := by
  rw [step_iff]
  constructor
  · rintro ⟨ha, rfl⟩
    rw [actions, List.mem_append, List.mem_append] at ha
    rcases ha with (ha | ha) | ha
    · split at ha
      · obtain ⟨ht, hall⟩ := ‹_ ∧ _›
        cases List.mem_singleton.1 ha
        have htm : tm = .init := ht
        subst htm
        refine ⟨_, .commit ?_, next_commit⟩
        simpa [assemble] using hall
      · cases ha
    · split at ha
      · cases List.mem_singleton.1 ha
        have htm : tm = .init := ‹_›
        subst htm
        exact ⟨_, .abort, next_abort⟩
      · cases ha
    · obtain ⟨i, hi, ha⟩ := List.mem_flatMap.1 ha
      obtain ⟨x, hx⟩ : ∃ x, xs[i]? = some x := ⟨_, List.getElem?_eq_getElem (List.mem_range.1 hi)⟩
      obtain ⟨rfl, y, hy⟩ := (mem_actionsOf hx).1 ha
      exact ⟨_, .shift hx hy, next_shift hx hy⟩
  · rintro ⟨c, hturn, rfl⟩
    rw [actions, List.mem_append, List.mem_append]
    cases hturn with
    | commit hall =>
      refine ⟨Or.inl (Or.inl ?_), next_commit.symm⟩
      rw [if_pos ⟨rfl, by simpa [assemble] using hall⟩]
      exact List.mem_singleton_self _
    | abort =>
      refine ⟨Or.inl (Or.inr ?_), next_abort.symm⟩
      rw [if_pos (show (assemble .init xs).tm = .init from rfl)]
      exact List.mem_singleton_self _
    | @shift _ _ k i x y hx hy =>
      refine ⟨Or.inr (List.mem_flatMap.2 ⟨i, ?_, ?_⟩), (next_shift hx hy).symm⟩
      · exact List.mem_range.2 (List.getElem?_eq_some_iff.1 hx).1
      · exact (mem_actionsOf hx).2 ⟨rfl, y, hy⟩

end TwoPhase

end StateSpace
