import StateSpace.Proofs.Path
import StateSpace.Proofs.Systems.TwoPhase.Forms

/-!
# Two-phase commit reaches agreement

* `not_committed_aborted` : no reachable state has a resource manager that committed and one that aborted;
* `decided_stable` : a resource manager that has decided never changes its mind;
* `agreement` : so no two resource managers decide differently, at whatever positions of a run.

Messages about a decision reach a resource manager in any state and overwrite it, so that a decision lasts only because the
reachable states have no resource manager that disagrees with the transaction manager.
-/

namespace StateSpace.TwoPhase

def RmState.Decided (r : RmState) : Prop := r = .committed ∨ r = .aborted

theorem rms_assemble {tm : TmState} {xs : List Stance} {i : Nat} {r : RmState} :
    (assemble tm xs).rms[i]? = some r ↔ ∃ x, xs[i]? = some x ∧ x.rm = r := by
  simp only [assemble, List.getElem?_map, Option.map_eq_some_iff]

/-! ## One state -/

theorem tm_of_committed {tm : TmState} {x : Stance} (hx : x ∈ stances tm) (h : x.rm = .committed) : tm = .committed := by
  cases tm with
  | committed => rfl
  | init | aborted =>
    refine absurd h ?_
    clear h
    revert x
    decide

theorem ne_aborted {x : Stance} (hx : x ∈ stances .committed) : x.rm ≠ .aborted := by
  revert x
  decide

theorem not_committed_aborted {n : Nat} {s : State} (h : (model n).Reachable s) {i j : Nat}
    (hi : s.rms[i]? = some .committed) (hj : s.rms[j]? = some .aborted) : False := by
  obtain ⟨tm, xs, -, hxs, rfl⟩ := isForm_of_reachable h
  obtain ⟨x, hx, hcommitted⟩ := rms_assemble.1 hi
  obtain ⟨y, hy, haborted⟩ := rms_assemble.1 hj
  have htm : tm = .committed := tm_of_committed (hxs x (List.mem_of_getElem? hx)) hcommitted
  subst htm
  exact ne_aborted (hxs y (List.mem_of_getElem? hy)) haborted

theorem consistent_of_reachable {n : Nat} {s : State} (h : (model n).Reachable s) : s.consistent = true := by
  rw [State.consistent, Bool.not_eq_true', ← Bool.not_eq_true, Bool.and_eq_true, List.contains_iff_mem,
    List.contains_iff_mem]
  rintro ⟨haborted, hcommitted⟩
  obtain ⟨i, hi⟩ := List.mem_iff_getElem?.1 hcommitted
  obtain ⟨j, hj⟩ := List.mem_iff_getElem?.1 haborted
  exact not_committed_aborted h hi hj

/-! ## One step -/

/-- A decided resource manager can only be told what it knows. -/
theorem Shift.rm_eq {tm : TmState} {k : ActionKind} {x y : Stance} (h : Shift tm k x y) (hx : x ∈ stances tm)
    (hd : x.rm.Decided) : y.rm = x.rm := by
  cases h with
  | hear => rfl
  | prepare hw | quit hw =>
    rw [hw] at hd
    rcases hd with hd | hd <;> cases hd
  | commit htm =>
    subst htm
    rcases hd with hd | hd
    · exact hd.symm
    · exact absurd hd (ne_aborted hx)
  | abort htm =>
    subst htm
    rcases hd with hd | hd
    · cases tm_of_committed hx hd
    · exact hd.symm

/-- **One step** leaves a decided resource manager as it is. -/
theorem decided_stable {n : Nat} {s t : State} {a : Action} {i : Nat} {r : RmState} (hr : r.Decided)
    (hs : (model n).Reachable s) (hstep : (model n).Step s a t) (hi : s.rms[i]? = some r) : t.rms[i]? = some r := by
  obtain ⟨tm, xs, rfl, hxs, rfl⟩ := isForm_of_reachable hs
  obtain ⟨c, hturn, rfl⟩ := step_assemble.1 hstep
  obtain ⟨x, hx, rfl⟩ := rms_assemble.1 hi
  apply rms_assemble.2
  cases hturn with
  | commit | abort => exact ⟨x, hx, rfl⟩
  | @shift _ _ k j y z hy hz =>
    by_cases hij : j = i
    · subst hij
      rw [hx, Option.some.injEq] at hy
      subst hy
      refine ⟨z, ?_, hz.rm_eq (hxs x (List.mem_of_getElem? hx)) hr⟩
      rw [List.getElem?_set_self (List.getElem?_eq_some_iff.1 hx).1]
    · exact ⟨x, by rw [List.getElem?_set_ne hij, hx], rfl⟩

/-! ## Whole runs -/

/-- **Agreement**: in no run, however many resource managers take part, does one commit at some position and one abort at
some position, be it the same resource manager or the same position. -/
theorem agreement (n : Nat) (p : Path State Action) (hp : p.IsRun (model n)) (i j t₁ t₂ : Nat) (s₁ s₂ : State)
    (h₁ : p.states[t₁]? = some s₁) (h₂ : p.states[t₂]? = some s₂) :
    ¬ (s₁.rms[i]? = some .committed ∧ s₂.rms[j]? = some .aborted) := by
  rintro ⟨hi, hj⟩
  -- the earlier of the two decisions still stands when the later is seen
  rcases Nat.le_total t₁ t₂ with hle | hle
  · have hlater : s₂.rms[i]? = some .committed :=
      hp.stable (fun _ _ _ => decided_stable (Or.inl rfl)) hle h₁ h₂ hi
    exact not_committed_aborted (hp.reachable h₂) hlater hj
  · have hlater : s₁.rms[j]? = some .aborted :=
      hp.stable (fun _ _ _ => decided_stable (Or.inr rfl)) hle h₂ h₁ hj
    exact not_committed_aborted (hp.reachable h₁) hi hlater

/-- Two resource managers prepare, are heard, and one of them learns that the transaction manager has committed. -/
def swiftRun : Path State Action :=
  [⟨.rmPrepare, 0⟩, ⟨.rmPrepare, 1⟩, ⟨.tmRcvPrepared, 1⟩, ⟨.tmRcvPrepared, 0⟩, ⟨.tmCommit, 0⟩, ⟨.rmRcvCommit, 1⟩].foldl
    (fun p a => p.push a (next p.last a)) (Path.single (initial 2))

theorem agreement_swiftRun : swiftRun.IsRun (model 2) ∧
    swiftRun.states[6]? = some (assemble .committed [⟨.prepared, true, true⟩, ⟨.committed, true, true⟩]) ∧
    swiftRun.states[3]? = some (assemble .init [⟨.prepared, true, false⟩, ⟨.prepared, true, true⟩]) ∧
    (assemble .committed [⟨.prepared, true, true⟩, ⟨.committed, true, true⟩]).rms[1]? = some .committed ∧
    (assemble .init [⟨.prepared, true, false⟩, ⟨.prepared, true, true⟩]).rms[0]? ≠ some .aborted := by
  have hrun : swiftRun.IsRun (model 2) := by
    refine ⟨List.mem_cons_self, rfl, step_iff.2 ⟨?_, rfl⟩, rfl, step_iff.2 ⟨?_, rfl⟩, rfl, step_iff.2 ⟨?_, rfl⟩, rfl,
      step_iff.2 ⟨?_, rfl⟩, rfl, step_iff.2 ⟨?_, rfl⟩, rfl, step_iff.2 ⟨?_, rfl⟩, trivial⟩ <;> decide
  exact ⟨hrun, rfl, rfl, rfl, fun hj => agreement 2 swiftRun hrun 1 0 6 3 _ _ rfl rfl ⟨rfl, hj⟩⟩

end StateSpace.TwoPhase
