import StateSpace.Proofs.Frontier.Crew

/-!
# A frontier is not given up while an entry is left

* `Crew.outstanding c` : the entries that are queued, stolen and not put down, popped and not completed, or counted and not
  appended;
* `Crew.Accounted c` : the pending count is their number; kept by every move (`Accounted.move`) and so by every
  interleaving (`accounted_after`);
* `outstanding_move` : once there are none, there never are any again, and nothing is pushed;
* `no_premature_exhaustion` : a pop that answers nothing, though no stop was requested, has that for a reason.
-/

namespace StateSpace.Crew

variable {α : Type} {c : Crew α}

/-- The number of entries that are not completed: in deques, stolen and in the thief's hands, popped, or between being
counted and being appended. -/
def outstanding (c : Crew α) : Nat :=
  c.frontier.entries.length + (c.stations.flatMap Station.loot).length + (c.stations.flatMap Station.held).length +
    (c.stations.flatMap Station.announced).length

/-- The pending count is the number of outstanding entries, as a word. -/
structure Accounted (c : Crew α) : Prop where
  workers : c.frontier.workers = c.stations.length
  pending : c.frontier.pending = .ofNat c.outstanding

/-- The entry that a move pushes; only a worker that holds an entry can push one. -/
def pushed (c : Crew α) : Move α → Option α
  | .work w (.push y) =>
    match c.stations[w]? with
    | some (.holding _) => some y
    | _ => none
  | _ => none

/-- In its next step the worker's pop answers that there is nothing to pop, and tells why. -/
def Dismisses (c : Crew α) (w : Nat) (choice : Choice α) (stopped : Bool) : Prop :=
  (∀ b, c.stations[w]? ≠ some (.dismissed b)) ∧ (c.step w choice).stations[w]? = some (.dismissed stopped)

def after (workers : Nat) (order : SearchOrder) (seeds : List α) (moves : List (Move α)) : Crew α :=
  (start workers order seeds).play moves

/-! ## Counting -/

theorem outstanding_eq (c : Crew α) :
    c.outstanding = c.frontier.entries.length + (c.stations.flatMap Station.entries).length := by
  have hsplit (sts : List (Station α)) : (sts.flatMap Station.entries).length = (sts.flatMap Station.loot).length +
      (sts.flatMap Station.held).length + (sts.flatMap Station.announced).length := by
    induction sts with
    | nil => rfl
    | cons st sts ih =>
      simp only [List.flatMap_cons, List.length_append, ih, Station.entries]
      omega
  rw [outstanding, hsplit]
  omega

theorem outstanding_set {w : Nat} {st : Station α} (h : c.stations[w]? = some st) (f : Frontier α) (st' : Station α) :
    (⟨f, c.stations.set w st'⟩ : Crew α).outstanding + (c.frontier.entries.length + st.entries.length) =
      c.outstanding + (f.entries.length + st'.entries.length) := by
  have hset := (flatMap_set_perm Station.entries st' h).length_eq
  simp only [List.length_append] at hset
  simp only [outstanding_eq]
  omega

theorem outstanding_pos {w : Nat} {x : α} (h : c.stations[w]? = some (.holding x)) : 0 < c.outstanding := by
  have hset := outstanding_set h c.frontier .asking
  have hone : (Station.holding x).entries.length = 1 := rfl
  have hzero : (Station.asking : Station α).entries.length = 0 := rfl
  omega

/-- **What a step does to the count**: nothing, or it announces an entry, or it completes one. -/
theorem step_cases (hw : c.frontier.workers = c.stations.length) (w : Nat) (choice : Choice α) :
    (c.step w choice).frontier.workers = c.frontier.workers ∧
    (((c.step w choice).outstanding = c.outstanding ∧ (c.step w choice).frontier.pending = c.frontier.pending ∧
      ∀ x, c.stations[w]? ≠ some (.holding x)) ∨
    (∃ x y, c.stations[w]? = some (.holding x) ∧ choice = .push y ∧ (c.step w choice).outstanding = c.outstanding + 1 ∧
      (c.step w choice).frontier.pending = c.frontier.pending + 1) ∨
    (∃ x, c.stations[w]? = some (.holding x) ∧ (∀ y, choice ≠ .push y) ∧
      (c.step w choice).outstanding + 1 = c.outstanding ∧
      (c.step w choice).frontier.pending = c.frontier.pending - 1)) := by
  cases h : c.stations[w]? with
  | none =>
    have hstay : c.step w choice = c := by rw [step, h]
    rw [hstay]
    exact ⟨rfl, Or.inl ⟨rfl, rfl, by simp⟩⟩
  | some st =>
    have hlt : w < c.frontier.workers := by
      rw [hw]
      exact (List.getElem?_eq_some_iff.1 h).1
    have hset := outstanding_set h (st.next w choice c.frontier).2 (st.next w choice c.frontier).1
    rw [step_eq h]
    rcases Station.next_cases choice st hlt with hshift | ⟨x, y, rfl, rfl, hn⟩ | ⟨x, rfl, hne, hn⟩
    · have hlen := hshift.entries.length_eq
      simp only [List.length_append] at hlen
      exact ⟨hshift.workers, Or.inl ⟨by omega, hshift.pending, fun x hx => hshift.not_holding x (Option.some.inj hx)⟩⟩
    · rw [hn] at hset ⊢
      dsimp only at hset ⊢
      have hsame : c.frontier.announce.entries = c.frontier.entries := rfl
      have hone : (Station.holding x).entries.length = 1 := rfl
      have htwo : (Station.pushing x y).entries.length = 2 := rfl
      simp only [hsame, hone, htwo] at hset
      exact ⟨rfl, Or.inr (Or.inl ⟨x, y, rfl, rfl, by omega, rfl⟩)⟩
    · rw [hn] at hset ⊢
      dsimp only at hset ⊢
      have hsame : c.frontier.complete.entries = c.frontier.entries := rfl
      have hone : (Station.holding x).entries.length = 1 := rfl
      have hzero : (Station.asking : Station α).entries.length = 0 := rfl
      simp only [hsame, hone, hzero] at hset
      exact ⟨rfl, Or.inr (Or.inr ⟨x, rfl, hne, by omega, rfl⟩)⟩

theorem length_stations_step (c : Crew α) (w : Nat) (choice : Choice α) :
    (c.step w choice).stations.length = c.stations.length := by
  unfold step
  split
  · rfl
  · exact List.length_set

/-! ## The pending count -/

theorem ofNat_sub_one {n k : Nat} (h : k + 1 = n) : UInt64.ofNat n - 1 = .ofNat k := by
  rw [← h, UInt64.ofNat_add]
  exact UInt64.add_sub_cancel _ 1

theorem Accounted.step (h : Accounted c) (w : Nat) (choice : Choice α) : Accounted (c.step w choice) := by
  obtain ⟨hworkers, hcases⟩ := step_cases h.workers w choice
  refine ⟨by rw [hworkers, length_stations_step, h.workers], ?_⟩
  rcases hcases with ⟨hout, hpend, -⟩ | ⟨x, y, -, -, hout, hpend⟩ | ⟨x, -, -, hout, hpend⟩
  · rw [hpend, hout, h.pending]
  · rw [hpend, hout, h.pending, UInt64.ofNat_add]
    rfl
  · rw [hpend, h.pending, ofNat_sub_one hout]

theorem Accounted.move (h : Accounted c) (mv : Move α) : Accounted (c.move mv) := by
  cases mv with
  | work w choice => exact h.step w choice
  | stop => exact ⟨h.workers, h.pending⟩

theorem Accounted.play (h : Accounted c) (moves : List (Move α)) : Accounted (c.play moves) := by
  induction moves generalizing c with
  | nil => exact h
  | cons mv moves ih => exact ih (h.move mv)

theorem seed_foldl (seeds : List α) {f : Frontier α} (hw : 0 < f.workers) (hp : f.pending = .ofNat f.entries.length) :
    (seeds.foldl Frontier.seed f).workers = f.workers ∧
      (seeds.foldl Frontier.seed f).pending = .ofNat (seeds.foldl Frontier.seed f).entries.length := by
  induction seeds generalizing f with
  | nil => exact ⟨rfl, hp⟩
  | cons x seeds ih =>
    have hworkers := f.workers_seed x
    have hlen := (Frontier.entries_seed hw x).length_eq
    rw [List.foldl_cons, ← hworkers]
    refine ih (by rw [hworkers]; exact hw) ?_
    rw [hlen, List.length_cons, UInt64.ofNat_add, ← hp]
    rfl

theorem accounted_start (workers : Nat) (order : SearchOrder) (seeds : List α) :
    Accounted (start workers order seeds) := by
  have hnil (g : Station α → List α) (hg : g .asking = []) :
      (List.replicate (max workers 1) (.asking : Station α)).flatMap g = [] := by
    rw [List.flatMap_eq_nil_iff]
    intro st hst
    rw [List.eq_of_mem_replicate hst, hg]
  obtain ⟨hw, hp⟩ := seed_foldl seeds (f := .new workers order) (by rw [Frontier.workers_new]; omega)
    (by rw [Frontier.entries_new]; rfl)
  refine ⟨by rw [start, hw, Frontier.workers_new, List.length_replicate], ?_⟩
  rw [outstanding_eq, start, hp, hnil Station.entries rfl]
  rfl

/-- **The pending count is the number of outstanding entries**, in every interleaving. -/
theorem accounted_after (workers : Nat) (order : SearchOrder) (seeds : List α) (moves : List (Move α)) :
    Accounted (after workers order seeds moves) :=
  (accounted_start workers order seeds).play moves

/-! ## Nothing comes of nothing -/

theorem pushed_eq_none (h : c.outstanding = 0) (mv : Move α) : c.pushed mv = none := by
  unfold pushed
  split
  · split
    · rename_i hx
      have hpos := outstanding_pos hx
      omega
    · rfl
  · rfl

theorem outstanding_move (hw : c.frontier.workers = c.stations.length) (h : c.outstanding = 0) (mv : Move α) :
    (c.move mv).outstanding = 0 := by
  cases mv with
  | stop => exact h
  | work w choice =>
    rcases (step_cases hw w choice).2 with ⟨hout, -⟩ | ⟨x, y, hx, -⟩ | ⟨x, hx, -⟩
    · exact hout.trans h
    · have hpos := outstanding_pos hx
      omega
    · have hpos := outstanding_pos hx
      omega

theorem Accounted.outstanding_play (ha : Accounted c) (h : c.outstanding = 0) (moves : List (Move α)) :
    (c.play moves).outstanding = 0 := by
  induction moves generalizing c with
  | nil => exact h
  | cons mv moves ih => exact ih (ha.move mv) (outstanding_move ha.workers h mv)

/-! ## Dismissal -/

theorem Dismisses.cases {w : Nat} {choice : Choice α} {stopped : Bool} (h : c.Dismisses w choice stopped) :
    stopped = true ∧ c.frontier.stopRequested = true ∨ stopped = false ∧ c.frontier.pending = 0 := by
  obtain ⟨hbefore, hafter⟩ := h
  cases hst : c.stations[w]? with
  | none =>
    rw [step, hst] at hafter
    cases hst.symm.trans hafter
  | some st =>
    have hlt := (List.getElem?_eq_some_iff.1 hst).1
    rw [step_eq hst, List.getElem?_set_self hlt] at hafter
    have hnext := Station.next_eq_dismissed (fun b hb => hbefore b (by rw [hst, hb])) (Option.some.inj hafter)
    simpa [Frontier.exhausted] using hnext

theorem Accounted.outstanding_eq_zero (h : Accounted c) (hlt : c.outstanding < UInt64.size) (hp : c.frontier.pending = 0) :
    c.outstanding = 0 := by
  have hnat := UInt64.toNat_ofNat_of_lt' hlt
  rw [← h.pending, hp] at hnat
  exact hnat.symm

/-- **No premature exhaustion**: a pop that answers nothing without a request to stop means that no entry is left
anywhere, nor ever will be. The count is a word, so this supposes that memory holds fewer entries than there are
words. -/
theorem no_premature_exhaustion (workers : Nat) (order : SearchOrder) (seeds : List α) (moves : List (Move α)) (c : Crew α)
    (hc : c = after workers order seeds moves) :
    c.frontier.pending = .ofNat c.outstanding ∧
    (c.outstanding < UInt64.size → c.frontier.pending.toNat = c.outstanding) ∧
    (∀ w x choice, c.stations[w]? = some (.holding x) → (∀ y, choice ≠ .push y) →
      (c.step w choice).outstanding + 1 = c.outstanding) ∧
    ∀ w choice stopped, c.outstanding < UInt64.size → c.Dismisses w choice stopped →
      stopped = false ∨ c.frontier.stopRequested = false →
      c.outstanding = 0 ∧ ∀ more mv, ((c.step w choice).play more).outstanding = 0 ∧
        ((c.step w choice).play more).pushed mv = none := by
  have ha : Accounted c := by
    rw [hc]
    exact accounted_after workers order seeds moves
  refine ⟨ha.pending, fun hlt => ?_, fun w x choice hx hne => ?_, fun w choice stopped hlt hd hstop => ?_⟩
  · rw [ha.pending]
    exact UInt64.toNat_ofNat_of_lt' hlt
  · rcases (step_cases ha.workers w choice).2 with ⟨-, -, hno⟩ | ⟨x', y, -, hy, -⟩ | ⟨x', -, -, hout, -⟩
    · exact absurd hx (hno x)
    · exact absurd hy (hne y)
    · exact hout
  · have hpend : c.frontier.pending = 0 := by
      rcases hd.cases with ⟨hs, hreq⟩ | ⟨-, hpend⟩
      · rcases hstop with hf | hf
        · cases hs.symm.trans hf
        · cases hreq.symm.trans hf
      · exact hpend
    have hzero := ha.outstanding_eq_zero hlt hpend
    have hnext : (c.step w choice).outstanding = 0 := outstanding_move ha.workers hzero (.work w choice)
    refine ⟨hzero, fun more mv => ?_⟩
    have hplay := (ha.step w choice).outstanding_play hnext more
    exact ⟨hplay, pushed_eq_none hplay mv⟩

/-- The second of two workers steals the only entry. -/
def theft : List (Move Nat) := [.work 1 .go, .work 1 .go, .work 1 (.victim 0)]

/-- While the thief has the entry in its hands, the first worker finds nothing and asks again. Then the thief puts the entry
down, pops it, pushes another, and completes both; the first worker looks everywhere once more. -/
def aftermath : List (Move Nat) :=
  List.replicate 7 (.work 0 .go) ++ List.replicate 4 (.work 1 .go) ++ .work 1 (.push 8) :: List.replicate 5 (.work 1 .go) ++
    List.replicate 6 (.work 0 .go)

theorem no_premature_exhaustion_theft :
    (after 2 .breadthFirst [7] theft).frontier.entries = [] ∧ (after 2 .breadthFirst [7] theft).frontier.pending = 1 ∧
    (after 2 .breadthFirst [7] (theft ++ aftermath)).Dismisses 0 .go false ∧
    (after 2 .breadthFirst [7] (theft ++ aftermath)).outstanding = 0 ∧
    ∀ more mv, (((after 2 .breadthFirst [7] (theft ++ aftermath)).step 0 .go).play more).pushed mv = none := by
  have hd : (after 2 .breadthFirst [7] (theft ++ aftermath)).Dismisses 0 .go false :=
    ⟨by decide +kernel, by decide +kernel⟩
  have hlt : (after 2 .breadthFirst [7] (theft ++ aftermath)).outstanding < UInt64.size := by decide +kernel
  obtain ⟨-, -, -, hover⟩ := no_premature_exhaustion 2 .breadthFirst [7] (theft ++ aftermath) _ rfl
  obtain ⟨hzero, hrest⟩ := hover 0 .go false hlt hd (Or.inl rfl)
  exact ⟨by decide +kernel, by decide +kernel, hd, hzero, fun more mv => (hrest more mv).2⟩

end StateSpace.Crew
