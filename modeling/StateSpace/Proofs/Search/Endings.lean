import StateSpace.Proofs.Search.Ledger

/-!
# How a search ends

* `Endings s g` : there is a reason to stop exactly when a stop was requested; a fault is such a reason; and unless there
  is one, a worker ends only when nothing is pending. Kept by every transition (`Reached.endings`);
* `Reached.pending_of_done` : a search that is over, and was not told to stop, has nothing pending;
* `Reached.depthLimited` : without a bound on the depth no entry is cut.
-/

namespace StateSpace.Search

variable {σ α : Type} {m : Model σ α} {cfg : Config σ} {s s' : Search σ α} {g g' : Chronicle σ}

/-- Why workers have ended, or will. -/
structure Endings (s : Search σ α) (g : Chronicle σ) : Prop where
  requested : s.frontier.stopRequested = s.stopReason.isSome
  lost : s.stopReason = none → g.lost = []
  fault : s.stopReason = none → s.fault = none
  finished : s.stopReason = none → .finished ∈ s.workers → s.frontier.pending = 0

/-- What a note does to the stop flag and the reason for it. -/
theorem note_cases {speaker : Log.Speaker} {findings : Findings} {reason : Option StopReason} {stop : Bool}
    {r : List Log.Record} (h : s.note cfg speaker findings =
      { s with stopReason := reason, frontier := s.frontier.flagged stop, records := r }) :
    reason = s.stopReason ∧ stop = s.frontier.stopRequested ∨ stop = true ∧ reason.isSome = true := by
  obtain ⟨reason', stop', r', heq, hcases⟩ := note_eq cfg speaker findings s
  rw [h] at heq
  have hreason : reason = reason' := congrArg Search.stopReason heq
  have hstop : stop = stop' := congrArg (fun s : Search σ α => s.frontier.stopRequested) heq
  rw [hreason, hstop]
  rcases hcases with hsame | ⟨hstop, x, hx⟩
  · exact Or.inl hsame
  · refine Or.inr ⟨hstop, ?_⟩
    rw [hx, Option.isSome_or]
    simp

theorem Endings.set (h : Endings s g) {w : Nat} {q : Phase σ α} (hws : s'.workers = s.workers.set w q)
    (hq : q ≠ .finished) (hf : s'.frontier = s.frontier) (hr : s'.stopReason = s.stopReason)
    (hfault : s'.fault = s.fault) (hl : g'.lost = g.lost) : Endings s' g' := by
  refine ⟨by rw [hf, hr]; exact h.requested, by rw [hr, hl]; exact h.lost, by rw [hr, hfault]; exact h.fault, ?_⟩
  rw [hr, hf, hws]
  intro hn hfin
  rcases List.mem_or_eq_of_mem_set hfin with hfin | hfin
  · exact h.finished hn hfin
  · exact absurd hfin.symm hq

theorem Endings.same (h : Endings s g) (hws : s'.workers = s.workers) (hf : s'.frontier = s.frontier)
    (hr : s'.stopReason = s.stopReason) (hfault : s'.fault = s.fault) : Endings s' g := by
  refine ⟨by rw [hf, hr]; exact h.requested, by rw [hr]; exact h.lost, by rw [hr, hfault]; exact h.fault, ?_⟩
  rw [hr, hf, hws]
  exact h.finished

theorem Endings.stopped (hreq : s'.frontier.stopRequested = true) (hr : s'.stopReason.isSome = true) : Endings s' g' := by
  have hne : s'.stopReason ≠ none := Option.isSome_iff_ne_none.1 hr
  exact ⟨by rw [hreq, hr], fun hn => absurd hn hne, fun hn => absurd hn hne, fun hn => absurd hn hne⟩

/-- While a worker holds an entry, no worker ends unless told to stop. -/
theorem Custody.not_finished (hc : Custody s g) (h : Endings s g) (hn : s.stopReason = none) {w : Nat} {p : Phase σ α}
    (hw : s.workers[w]? = some p) (hp : p.held ≠ []) : .finished ∉ s.workers := by
  intro hfin
  have hle := hc.held_le hw
  rw [h.finished hn hfin, UInt64.toNat_zero] at hle
  exact hp (List.length_eq_zero_iff.1 (by omega))

theorem Transition.endings {who : Option Nat} (hr : Reached m cfg s g) (ht : Transition m cfg who s g s' g')
    (h : Endings s g) : Endings s' g' := by
  cases ht with
  | log | rest | again => exact h.same rfl rfl rfl rfl
  | start | wait | visit | present | outside | deep | enumerate | skip | known | discover | judge =>
    exact h.set rfl (by simp) rfl rfl rfl rfl
  | cancel | crash => exact .stopped rfl (by simp)
  | @take w pick _ _ r p e theft f hw hp hpop =>
    have halike := (Frontier.pop_entry (hr.worker_lt hw) hpop).2
    refine ⟨halike.stopRequested.trans h.requested, h.lost, h.fault, fun hn hfin => ?_⟩
    rcases List.mem_or_eq_of_mem_set hfin with hfin | hfin
    · exact halike.pending.trans (h.finished hn hfin)
    · cases hfin
  | @leave w pick _ _ r p hw hp hpop =>
    refine ⟨h.requested, h.lost, h.fault, fun hn _ => ?_⟩
    rcases Frontier.pop_over (hr.worker_lt hw) hpop with hstop | ⟨-, hpend⟩
    · have hreq := h.requested
      rw [hstop, show s.stopReason = none from hn] at hreq
      cases hreq
    · exact hpend
  | @complete w _ _ e hw =>
    refine ⟨h.requested, h.lost, h.fault, fun hn hfin => ?_⟩
    rcases List.mem_or_eq_of_mem_set hfin with hfin | hfin
    · exact absurd hfin (hr.custody.not_finished h hn hw (by simp [Phase.held]))
    · cases hfin
  | @give w _ _ e child todo hw =>
    refine ⟨h.requested, h.lost, h.fault, fun hn hfin => ?_⟩
    rcases List.mem_or_eq_of_mem_set hfin with hfin | hfin
    · exact absurd hfin (hr.custody.not_finished h hn hw (by simp [Phase.held]))
    · cases hfin
  | @note w _ _ r e child todo findings reason stop hw hn =>
    rcases note_cases hn with ⟨rfl, rfl⟩ | ⟨rfl, hreason⟩
    · exact h.set rfl (by simp) rfl rfl rfl rfl
    · exact .stopped rfl hreason
  | @plant _ _ r r' state registry ev reason stop hw hi hl hs hb hev hf hn =>
    rcases note_cases hn with ⟨rfl, rfl⟩ | ⟨rfl, hreason⟩
    · refine ⟨h.requested, h.lost, h.fault, fun _ hfin => ?_⟩
      have hstart := hw .finished hfin
      cases hstart
    · exact .stopped rfl hreason

theorem Reached.endings (h : Reached m cfg s g) : Endings s g := by
  induction h with
  | blank =>
    refine ⟨rfl, fun _ => rfl, fun _ => rfl, fun _ hfin => ?_⟩
    have hstart := List.eq_of_mem_replicate hfin
    cases hstart
  | next hr ht ih => exact ht.endings hr ih

/-- **A search that is over, and was not told to stop, has nothing pending.** -/
theorem Reached.pending_of_done (h : Reached m cfg s g) (hn : s.stopReason = none) (hd : s.done = true) :
    s.frontier.pending = 0 := by
  refine h.endings.finished hn ?_
  have hlen := h.length_workers
  obtain ⟨p, hp⟩ := List.exists_mem_of_length_pos (l := s.workers) (by omega)
  have hfin : p.isFinished = true := List.all_eq_true.1 hd p hp
  cases p with
  | finished => exact hp
  | _ => cases hfin

theorem Reached.depthLimited (h : Reached m cfg s g) (hd : cfg.maxDepth = 0) : s.depthLimited = false := by
  induction h with
  | blank => rfl
  | next _ ht ih =>
    cases ht with
    | deep _ _ hcut => exact absurd hcut.1 (by omega)
    | _ => exact ih

end StateSpace.Search
