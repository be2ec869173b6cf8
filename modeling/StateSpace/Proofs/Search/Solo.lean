import StateSpace.Proofs.Search.Endings
import StateSpace.Search.Run

/-!
# A single worker always ends

With one worker there is one schedule. It never has to wait, and it ends, whatever the model: there are fewer fingerprints
than words, and each is expanded at most once.

* `potential s` : what is left to do, counted in turns; `Transition.solo_progress` : each step lowers it, or lowers the work
  left on the actions of the current entry;
* `runWorker_spec` : with a turn for each unit of the potential the worker ends;
* `check_solo` : a whole search ends, and it is the search that enough steps of the worker lead to.
-/

namespace StateSpace

variable {σ α : Type}

/-- The turns a worker needs for the entry it holds, or to end. -/
def Phase.rank : Phase σ α → Nat
  | .finished => 0
  | .idle | .waiting => 1
  | .starting | .acting _ _ | .judging _ _ _ | .noting _ _ _ _ | .pushing _ _ _ => 2
  | .opening _ => 3
  | .showing _ _ => 4
  | .visiting _ => 5

theorem Phase.rank_eq_zero {p : Phase σ α} : p.rank = 0 ↔ p = .finished := by
  cases p <;> simp [rank]

namespace Search

variable {m : Model σ α} {cfg : Config σ} {s s' : Search σ α} {g g' : Chronicle σ}

/-- The turns that a single worker needs at most: five for each entry it may still take. -/
def potential (s : Search σ α) : Nat :=
  5 * (wordCount - s.generated + (s.phase 0).fresh.length + s.frontier.entries.length) + (s.phase 0).rank

theorem phase_set {w : Nat} {p q : Phase σ α} (hw : s.workers[w]? = some p) (hws : s'.workers = s.workers.set w q) :
    s'.phase w = q := by
  rw [phase, hws, List.getElem?_set_self (List.getElem?_eq_some_iff.1 hw).1]
  rfl

theorem Reached.solo (h : Reached m cfg s g) (h1 : cfg.workers ≤ 1) : s.workers = [s.phase 0] := by
  have hlen := h.length_workers
  obtain ⟨p, hp⟩ := List.length_eq_one_iff.1 (show s.workers.length = 1 by omega)
  rw [phase, hp]
  rfl

/-- A single worker finds an entry or is told that the search is over. -/
theorem Reached.pop_ne_waiting (h : Reached m cfg s g) (h1 : cfg.workers ≤ 1) (hp : (s.phase 0).held = []) (pick : Nat)
    {f : Frontier (Entry σ)} : s.frontier.pop 0 pick ≠ (.waiting, none, f) := by
  intro hpop
  have hsolo := h.solo h1
  have hlt : 0 < s.frontier.workers := by
    rw [h.workers, hsolo]
    exact Nat.zero_lt_one
  obtain ⟨hstop, hempty, hpend⟩ := Frontier.pop_waiting hlt hpop
  have hreason : s.stopReason = none := by
    have hreq := h.endings.requested
    rw [hstop] at hreq
    exact Option.isSome_eq_false_iff.1 hreq.symm |> Option.isNone_iff_eq_none.1
  -- nothing is queued, held or lost, so nothing is pending
  have hcount := h.custody.pending
  rw [hempty, hsolo, h.endings.lost hreason, List.flatMap_singleton, hp] at hcount
  exact hpend (UInt64.toNat_inj.1 (by simpa using hcount))

/-- **A step of a single worker** that has not ended lowers the potential, or does not raise it and lowers the work left
on the actions of its entry. -/
theorem Transition.solo_progress (hr : Reached m cfg s g) (h1 : cfg.workers ≤ 1)
    (ht : Transition m cfg (some 0) s g s' g') (hne : s.phase 0 ≠ .finished) :
    potential s' < potential s ∧ (s.phase 0).work = 0 ∨
    potential s' ≤ potential s ∧ (s'.phase 0).work < (s.phase 0).work := by
  have hlt := (hr.next ht).ledger_lt
  have hword : wordCount = 2 ^ 64 := rfl
  unfold potential
  rw [hr.size_eq, (hr.next ht).size_eq]
  cases ht with
  | rest h => exact absurd h hne
  | start hw | visit hw | present hw | outside hw | deep hw | enumerate hw =>
    left
    rw [phase_eq hw, phase_set hw rfl]
    refine ⟨?_, rfl⟩
    simp only [Phase.fresh, Phase.rank]
    omega
  | complete hw =>
    left
    rw [phase_eq hw, phase_set hw rfl]
    refine ⟨?_, rfl⟩
    have hentries : s.frontier.complete.entries = s.frontier.entries := rfl
    simp only [Phase.fresh, Phase.rank, hentries]
    omega
  | @take _ pick _ _ r p e theft f hw hp hpop =>
    left
    rw [phase_eq hw, phase_set hw rfl]
    have hlen := (Frontier.pop_entry (hr.worker_lt hw) hpop).1.length_eq
    rw [List.length_cons] at hlen
    rcases hp with rfl | rfl
    · refine ⟨?_, rfl⟩
      simp only [Phase.fresh, Phase.rank]
      omega
    · refine ⟨?_, rfl⟩
      simp only [Phase.fresh, Phase.rank]
      omega
  | @wait _ pick _ _ p hw hp hpop =>
    refine absurd hpop (hr.pop_ne_waiting h1 ?_ pick)
    rw [phase_eq hw]
    exact (held_of_idle hp).1
  | @leave _ pick _ _ r p hw hp hpop =>
    left
    rw [phase_eq hw, phase_set hw rfl]
    rcases hp with rfl | rfl
    · refine ⟨?_, rfl⟩
      simp only [Phase.fresh, Phase.rank]
      omega
    · refine ⟨?_, rfl⟩
      simp only [Phase.fresh, Phase.rank]
      omega
  | skip hw | known hw =>
    right
    rw [phase_eq hw, phase_set hw rfl]
    simp only [Phase.fresh, Phase.rank, Phase.work, List.length_cons]
    omega
  | discover hw =>
    right
    rw [phase_eq hw, phase_set hw rfl]
    simp only [Phase.fresh, Phase.rank, Phase.work, List.length_cons, List.length_nil] at hlt ⊢
    omega
  | judge hw =>
    right
    rw [phase_eq hw, phase_set hw rfl]
    simp only [Phase.fresh, Phase.rank, Phase.work]
    omega
  | @note _ _ _ r e child todo findings reason stop hw =>
    right
    rw [phase_eq hw, phase_set hw rfl]
    have hentries : (s.frontier.flagged stop).entries = s.frontier.entries := rfl
    simp only [Phase.fresh, Phase.rank, Phase.work, hentries]
    omega
  | @give _ _ _ e child todo hw =>
    right
    rw [phase_eq hw, phase_set hw rfl]
    have happ := (Frontier.entries_append (f := s.frontier.announce) (hr.worker_lt hw) child).length_eq
    have hentries : s.frontier.announce.entries = s.frontier.entries := rfl
    rw [List.length_cons, hentries] at happ
    simp only [Phase.fresh, Phase.rank, Phase.work, List.length_cons, List.length_nil, happ]
    omega
  | @crash _ _ _ r p e f d hw hp =>
    rw [phase_eq hw, phase_set hw rfl]
    have hrank : 0 < p.rank := by
      rw [Nat.pos_iff_ne_zero, Ne, Phase.rank_eq_zero]
      rintro rfl
      cases hp
    have hlower : 5 * (wordCount - g.ledger.length + 0 + s.frontier.entries.length) + 0 <
        5 * (wordCount - g.ledger.length + p.fresh.length + s.frontier.entries.length) + p.rank := by
      omega
    by_cases hwork : p.work = 0
    · exact Or.inl ⟨hlower, hwork⟩
    · exact Or.inr ⟨Nat.le_of_lt hlower, Nat.pos_of_ne_zero hwork⟩

theorem Reached.not_waiting (h : Reached m cfg s g) (h1 : cfg.workers ≤ 1) : .waiting ∉ s.workers := by
  induction h with
  | blank =>
    intro hmem
    have hstart := List.eq_of_mem_replicate hmem
    cases hstart
  | next hr ht ih =>
    intro hmem
    cases ht with
    | log | rest | cancel | again | plant => exact ih hmem
    | @wait w pick _ _ p hw hp hpop =>
      have hlt := (List.getElem?_eq_some_iff.1 hw).1
      rw [hr.solo h1, List.length_singleton, Nat.lt_one_iff] at hlt
      subst hlt
      refine hr.pop_ne_waiting h1 ?_ pick hpop
      rw [phase_eq hw]
      exact (held_of_idle hp).1
    | _ =>
      rcases List.mem_or_eq_of_mem_set hmem with hmem | hmem
      · exact ih hmem
      · cases hmem

/-! ## Runs -/

/-- Some steps of the first worker lead from `s` to `t`. -/
def Follows (m : Model σ α) (cfg : Config σ) (s t : Search σ α) : Prop :=
  ∃ n, t = s.play m cfg (List.replicate n (.work 0 0))

theorem Follows.refl (s : Search σ α) : Follows m cfg s s := ⟨0, rfl⟩

theorem Follows.step {t : Search σ α} (h : Follows m cfg (s.step m cfg 0 0) t) : Follows m cfg s t := by
  obtain ⟨n, rfl⟩ := h
  exact ⟨n + 1, rfl⟩

theorem Follows.trans {t u : Search σ α} (h : Follows m cfg s t) (h' : Follows m cfg t u) : Follows m cfg s u := by
  obtain ⟨n, rfl⟩ := h
  obtain ⟨k, rfl⟩ := h'
  refine ⟨n + k, ?_⟩
  rw [List.replicate_add, play, play, play, List.foldl_append]

theorem Follows.reached {t : Search σ α} (hf : Follows m cfg s t) (h : Reached m cfg s g) : ∃ g', Reached m cfg t g' := by
  obtain ⟨n, rfl⟩ := hf
  obtain ⟨g', hr, -⟩ := h.play (List.replicate n (.work 0 0))
  exact ⟨g', hr⟩

theorem Reached.step_solo (h : Reached m cfg s g) (h1 : cfg.workers ≤ 1) (hne : s.phase 0 ≠ .finished) :
    potential (s.step m cfg 0 0) < potential s ∧ (s.phase 0).work = 0 ∨
    potential (s.step m cfg 0 0) ≤ potential s ∧ ((s.step m cfg 0 0).phase 0).work < (s.phase 0).work := by
  obtain ⟨g', ht⟩ := step_transition m cfg s g 0 0 h.sound h.workers
  exact ht.solo_progress h h1 hne

/-- The steps on the actions of an entry come to their end. -/
theorem actAll_spec (h1 : cfg.workers ≤ 1) (fuel : Nat) (h : Reached m cfg s g) (hf : (s.phase 0).work ≤ fuel) :
    Follows m cfg s (actAll m cfg 0 fuel s) ∧ potential (actAll m cfg 0 fuel s) ≤ potential s ∧
      ((actAll m cfg 0 fuel s).phase 0).work = 0 := by
  induction fuel generalizing s g with
  | zero => exact ⟨.refl s, Nat.le_refl _, Nat.le_zero.1 hf⟩
  | succ fuel ih =>
    unfold actAll
    by_cases hwork : (s.phase 0).work = 0
    · rw [if_pos hwork]
      exact ⟨.refl s, Nat.le_refl _, hwork⟩
    · rw [if_neg hwork]
      have hne : s.phase 0 ≠ .finished := by
        intro hfin
        rw [hfin] at hwork
        exact hwork rfl
      rcases h.step_solo h1 hne with ⟨-, hzero⟩ | ⟨hle, hlt⟩
      · exact absurd hzero hwork
      · obtain ⟨g', hr⟩ := (Follows.refl (m := m) (s.step m cfg 0 0)).step.reached h
        obtain ⟨hfol, hpot, hend⟩ := ih hr (by omega)
        exact ⟨hfol.step, Nat.le_trans hpot hle, hend⟩

theorem turn_spec (h1 : cfg.workers ≤ 1) (h : Reached m cfg s g) (hwork : (s.phase 0).work = 0)
    (hne : s.phase 0 ≠ .finished) : Follows m cfg s (s.turn m cfg 0) ∧ potential (s.turn m cfg 0) < potential s ∧
      ((s.turn m cfg 0).phase 0).work = 0 := by
  unfold turn
  rcases h.step_solo h1 hne with ⟨hlt, -⟩ | ⟨-, hlt⟩
  · obtain ⟨g', hr⟩ := (Follows.refl (m := m) (s.step m cfg 0 0)).step.reached h
    obtain ⟨hfol, hpot, hend⟩ := actAll_spec h1 _ hr (Nat.le_refl _)
    exact ⟨hfol.step, Nat.lt_of_le_of_lt hpot hlt, hend⟩
  · omega

theorem Reached.rests_solo (h : Reached m cfg s g) (h1 : cfg.workers ≤ 1) :
    s.rests 0 = true ↔ s.phase 0 = .finished := by
  have hmem : s.phase 0 ∈ s.workers := by
    rw [h.solo h1]
    exact List.mem_singleton_self _
  unfold rests
  cases hp : s.phase 0 with
  | waiting =>
    rw [hp] at hmem
    exact absurd hmem (h.not_waiting h1)
  | _ => simp

/-- **With a turn for each unit of the potential a single worker ends.** -/
theorem runWorker_spec (h1 : cfg.workers ≤ 1) (fuel : Nat) (h : Reached m cfg s g) (hwork : (s.phase 0).work = 0)
    (hf : potential s ≤ fuel) : Follows m cfg s (runWorker m cfg (fun _ => false) 0 fuel s) ∧
      (runWorker m cfg (fun _ => false) 0 fuel s).phase 0 = .finished := by
  induction fuel generalizing s g with
  | zero =>
    refine ⟨.refl s, Phase.rank_eq_zero.1 ?_⟩
    unfold potential at hf
    show (s.phase 0).rank = 0
    omega
  | succ fuel ih =>
    unfold runWorker
    by_cases hfin : s.phase 0 = .finished
    · rw [if_pos (by simp [(h.rests_solo h1).2 hfin])]
      exact ⟨.refl s, hfin⟩
    · have hrests : s.rests 0 = false := by
        rw [← Bool.not_eq_true, h.rests_solo h1]
        exact hfin
      rw [if_neg (by simp [hrests])]
      obtain ⟨hfol, hpot, hend⟩ := turn_spec h1 h hwork hfin
      obtain ⟨g', hr⟩ := hfol.reached h
      obtain ⟨hfol', hend'⟩ := ih hr hend (by omega)
      exact ⟨hfol.trans hfol', hend'⟩

/-! ## Whole searches -/

theorem step_pick (h : s.frontier.workers = 1) (pick : Nat) : s.step m cfg 0 pick = s.step m cfg 0 0 := by
  have hpop : s.frontier.pop 0 pick = s.frontier.pop 0 0 := by
    simp only [Frontier.pop, Frontier.victims_solo h, List.getElem?_nil]
  have htake : s.take pick 0 = s.take 0 0 := by rw [take, hpop, take]
  unfold step
  cases s.phase 0 with
  | idle | waiting => exact htake
  | acting e todo =>
    cases todo with
    | nil => rfl
    | cons a todo => rfl
  | _ => rfl

theorem Reached.play_solo (h : Reached m cfg s g) (h1 : cfg.workers ≤ 1) (moves : List Move)
    (hm : ∀ mv ∈ moves, ∃ pick, mv = .work 0 pick) :
    s.play m cfg moves = s.play m cfg (List.replicate moves.length (.work 0 0)) := by
  induction moves generalizing s g with
  | nil => rfl
  | cons mv moves ih =>
    obtain ⟨pick, rfl⟩ := hm mv List.mem_cons_self
    have hone : s.frontier.workers = 1 := by rw [h.workers, h.solo h1]; rfl
    obtain ⟨g', hr⟩ := (Follows.refl (m := m) (s.step m cfg 0 0)).step.reached h
    have hrest := ih hr fun mv hmv => hm mv (List.mem_cons_of_mem _ hmv)
    show (s.step m cfg 0 pick).play m cfg moves = (s.step m cfg 0 0).play m cfg (List.replicate moves.length (.work 0 0))
    rw [step_pick hone, hrest]

theorem play_finished (h : s.phase 0 = .finished) (n : Nat) : s.play m cfg (List.replicate n (.work 0 0)) = s := by
  induction n with
  | zero => rfl
  | succ n ih =>
    have hstep : s.step m cfg 0 0 = s := by rw [step, h]
    show (s.step m cfg 0 0).play m cfg (List.replicate n (.work 0 0)) = s
    rw [hstep, ih]

theorem Seeded.phase_eq (h : Seeded m cfg s g) : s.phase 0 = .starting := by
  have hlen := h.reached.length_workers
  have hlt : 0 < s.workers.length := by omega
  rw [phase, List.getElem?_eq_getElem hlt]
  exact h.starting _ (List.getElem_mem hlt)

theorem Seeded.potential_le (h : Seeded m cfg s g) : potential s ≤ turnLimit := by
  have hlt := h.reached.ledger_lt
  have hlen := h.reached.custody.length_eq
  have hword : wordCount = 2 ^ 64 := rfl
  unfold potential turnLimit
  rw [h.reached.size_eq, h.phase_eq]
  simp only [Phase.fresh, Phase.rank, List.length_nil]
  omega

/-- **A search with a single worker ends**, and it is the search that any long enough list of its steps leads to. -/
theorem check_solo (h1 : cfg.workers ≤ 1) (hseed : (seed m cfg).1 = .ok ()) : ∃ s n, check m cfg = .ok s ∧ s.done = true ∧
    ∀ moves : List Move, (∀ mv ∈ moves, ∃ pick, mv = .work 0 pick) → n ≤ moves.length → after m cfg moves = s := by
  obtain ⟨g, hs⟩ := seed_seeded hseed
  have hwork : ((seed m cfg).2.phase 0).work = 0 := by rw [hs.phase_eq]; rfl
  obtain ⟨⟨n, hn⟩, hfin⟩ := runWorker_spec h1 turnLimit hs.reached hwork hs.potential_le
  obtain ⟨g', hr⟩ := Follows.reached ⟨n, hn⟩ hs.reached
  have hrun : (seed m cfg).2.run m cfg = runWorker m cfg (fun _ => false) 0 turnLimit (seed m cfg).2 := by
    rw [run, hs.reached.solo h1]
    rfl
  refine ⟨runWorker m cfg (fun _ => false) 0 turnLimit (seed m cfg).2, n, ?_, ?_, fun moves hm hlen => ?_⟩
  · unfold check
    cases hsd : seed m cfg with
    | mk outcome s =>
      rw [hsd] at hseed hrun
      dsimp only at hseed hrun
      subst hseed
      rw [← hrun]
  · rw [done, hr.solo h1, hfin]
    rfl
  · rw [after, hs.reached.play_solo h1 moves hm, show moves.length = n + (moves.length - n) by omega, List.replicate_add, play,
      List.foldl_append]
    rw [hn] at hfin ⊢
    exact play_finished hfin _

end Search

end StateSpace
