import Mathlib.Data.List.Induction
import StateSpace.Proofs.Frontier.Deques

/-!
# A frontier keeps every entry, in the order of the pushes

What workers ask of a frontier is one list of requests. A pop leaves to chance from whom an idle worker steals, so a request
to pop comes with that choice.

* `Request`, `Reply`, `serve`, `served`, `transcript` : requests, replies, and the list of both;
* `accepted`, `popped`, `completed`, `answers` : what a transcript says;
* `Holds` : the accepted entries are those given out and those queued, and each deque is part of the list of the accepted;
  kept by a push (`Holds.append`) and by a pop (`Holds.pop`);
* `Traced` : the same for entries that carry their place in the order of the pushes, so that equal entries are told apart;
* `Tracks` : what a transcript says about the frontier; kept by each request (`Tracks.serve`);
* `SearchOrder.pops` : what a queue or a stack answers; `answers_solo` : with one worker, the frontier is one of them;
* `entries_conserved` : all of this, for any list of requests.
-/

namespace StateSpace

variable {α : Type}

namespace Frontier

/-! ## Requests and replies -/

inductive Request (α : Type) where
  | seed (x : α)
  | push (worker : Nat) (x : α)
  | pop (worker pick : Nat)
  | complete
  | stop
  deriving DecidableEq, Repr

inductive Reply (α : Type) where
  | accepted
  | refused (error : PushError)
  | popped (answer : Popped α) (theft : Option Theft)
  | noted
  deriving DecidableEq, Repr

def serve (f : Frontier α) : Request α → Reply α × Frontier α
  | .seed x => (.accepted, f.seed x)
  | .push worker x =>
    match f.push worker x with
    | .ok f' => (.accepted, f')
    | .error e => (.refused e, f)
  | .pop worker pick => (.popped (f.pop worker pick).1 (f.pop worker pick).2.1, (f.pop worker pick).2.2)
  | .complete => (.noted, f.complete)
  | .stop => (.noted, f.requestStop)

def served (f : Frontier α) (requests : List (Request α)) : Frontier α := requests.foldl (fun f q => (f.serve q).2) f

def transcript (f : Frontier α) : List (Request α) → List (Request α × Reply α)
  | [] => []
  | q :: rest => (q, (f.serve q).1) :: (f.serve q).2.transcript rest

theorem served_concat (f : Frontier α) (past : List (Request α)) (q : Request α) :
    f.served (past ++ [q]) = ((f.served past).serve q).2 := by
  simp [served]

theorem transcript_concat (f : Frontier α) (past : List (Request α)) (q : Request α) :
    f.transcript (past ++ [q]) = f.transcript past ++ [(q, ((f.served past).serve q).1)] := by
  induction past generalizing f with
  | nil => rfl
  | cons p past ih => simp [transcript, ih, served]

/-! ## What a transcript says -/

/-- The entries that were taken in, in the order of their pushes. -/
def accepted (log : List (Request α × Reply α)) : List α :=
  log.filterMap fun
    | (.seed x, .accepted) => some x
    | (.push _ x, .accepted) => some x
    | _ => none

def popped (log : List (Request α × Reply α)) : List α :=
  log.filterMap fun
    | (_, .popped (.entry x) _) => some x
    | _ => none

def completed (log : List (Request α × Reply α)) : Nat :=
  log.countP fun
    | (.complete, _) => true
    | _ => false

def Popped.given? : Popped α → Option α
  | .entry x => some x
  | _ => none

def answers (log : List (Request α × Reply α)) : List (Option α) :=
  log.filterMap fun
    | (_, .popped answer _) => some answer.given?
    | _ => none

/-! ## Entries and their order -/

/-- The accepted entries are those given out and those queued, and every deque lists its entries in their order. -/
structure Holds (taken given : List α) (f : Frontier α) : Prop where
  perm : taken.Perm (given ++ f.entries)
  sublist : ∀ v, (f.queued v).Sublist taken

variable {taken given : List α} {f : Frontier α} {worker pick : Nat}

theorem holds_new (workers : Nat) (order : SearchOrder) : Holds [] [] (new workers order : Frontier α) := by
  refine ⟨by rw [entries_new]; exact .refl _, fun v => ?_⟩
  simp only [queued, new, List.getElem?_replicate]
  split <;> exact List.nil_sublist _

theorem Holds.append (h : Holds taken given f) (hw : worker < f.workers) (x : α) :
    Holds (taken ++ [x]) given (f.append worker x) := by
  obtain ⟨hself, hothers⟩ := queued_append hw x
  refine ⟨?_, fun v => ?_⟩
  · calc taken ++ [x]
      _ |>.Perm (given ++ f.entries ++ [x]) := h.perm.append_right [x]
      _ |>.Perm (given ++ (x :: f.entries)) := by
        rw [List.append_assoc]
        exact (List.perm_append_singleton x f.entries).append_left given
      _ |>.Perm (given ++ (f.append worker x).entries) := (entries_append hw x).symm.append_left given
  · by_cases hv : v = worker
    · rw [hv, hself]
      exact (h.sublist worker).append_right [x]
    · rw [hothers v hv]
      exact (h.sublist v).trans (List.sublist_append_left taken [x])

theorem Holds.pop {x : α} {theft : Option Theft} {f' : Frontier α} (h : Holds taken given f) (hw : worker < f.workers)
    (hpop : f.pop worker pick = (.entry x, theft, f')) : Holds taken (given ++ [x]) f' := by
  refine ⟨?_, fun u => ?_⟩
  · rw [List.append_assoc]
    exact h.perm.trans ((pop_entry hw hpop).1.append_left given)
  · obtain ⟨v, hv⟩ := pop_sublist hw hpop u
    exact hv.trans (h.sublist v)

/-- The entries can be told apart by their places among the accepted ones: with these, each was given out or is queued once,
and every deque lists its entries in the order of their pushes. -/
def Traced (taken given : List α) (f : Frontier α) : Prop :=
  ∃ (g : Frontier (α × Nat)) (marked : List (α × Nat)), g.map Prod.fst = f ∧ marked.map Prod.fst = given ∧
    Holds taken.zipIdx marked g

theorem traced_new (workers : Nat) (order : SearchOrder) : Traced [] [] (new workers order : Frontier α) :=
  ⟨new workers order, [], new_map Prod.fst workers order, rfl, holds_new workers order⟩

theorem Traced.of_deques (h : Traced taken given f) {f' : Frontier α} (hdeques : f'.deques = f.deques) :
    Traced taken given f' := by
  obtain ⟨g, marked, rfl, hgiven, hholds⟩ := h
  refine ⟨⟨f'.order, g.deques, f'.seeded, f'.pending, f'.stopRequested, f'.stolen⟩, marked, ?_, hgiven, ?_⟩
  · simp only [map] at hdeques ⊢
    rw [← hdeques]
  · exact ⟨hholds.perm, hholds.sublist⟩

theorem zipIdx_concat (xs : List α) (x : α) : (xs ++ [x]).zipIdx = xs.zipIdx ++ [(x, xs.length)] := by
  simp [List.zipIdx_append]

theorem Traced.append (h : Traced taken given f) (hw : worker < f.workers) (x : α) :
    Traced (taken ++ [x]) given (f.append worker x) := by
  obtain ⟨g, marked, rfl, hgiven, hholds⟩ := h
  rw [workers_map] at hw
  refine ⟨g.append worker (x, taken.length), marked, ?_, hgiven, ?_⟩
  · exact (append_map Prod.fst g worker (x, taken.length)).symm
  · rw [zipIdx_concat]
    exact hholds.append hw _

theorem Traced.pop {x : α} {theft : Option Theft} {f' : Frontier α} (h : Traced taken given f) (hw : worker < f.workers)
    (hpop : f.pop worker pick = (.entry x, theft, f')) : Traced taken (given ++ [x]) f' := by
  obtain ⟨g, marked, rfl, hgiven, hholds⟩ := h
  rw [workers_map] at hw
  rw [pop_map] at hpop
  obtain ⟨answer, theft', g', hg⟩ : ∃ answer theft' g', g.pop worker pick = (answer, theft', g') := ⟨_, _, _, rfl⟩
  rw [hg] at hpop
  cases answer with
  | entry y =>
    cases hpop
    refine ⟨g', marked ++ [y], rfl, ?_, hholds.pop hw hg⟩
    rw [List.map_append, hgiven]
    rfl
  | _ => cases hpop

theorem Traced.perm (h : Traced taken given f) : taken.Perm (given ++ f.entries) := by
  obtain ⟨g, marked, rfl, rfl, hholds⟩ := h
  have hperm := hholds.perm.map Prod.fst
  rwa [List.zipIdx_map_fst, List.map_append, ← entries_map] at hperm

/-! ## Following the transcript -/

/-- What a transcript says about the frontier. -/
structure Tracks (workers : Nat) (order : SearchOrder) (log : List (Request α × Reply α)) (f : Frontier α) : Prop where
  workers : f.workers = max workers 1
  order : f.order = order
  stopRequested : f.stopRequested = true ↔ .stop ∈ log.map Prod.fst
  pending : f.pending = .ofNat (accepted log).length - .ofNat (completed log)
  traced : Traced (accepted log) (popped log) f

section

variable {workers : Nat} {order : SearchOrder} {log : List (Request α × Reply α)}

theorem tracks_new (workers : Nat) (order : SearchOrder) : Tracks workers order [] (new workers order : Frontier α) :=
  ⟨workers_new workers order, rfl, by simp [new], by simp [new, accepted, completed], traced_new workers order⟩

theorem Tracks.pos (h : Tracks workers order log f) : 0 < f.workers := by
  rw [h.workers]
  exact Nat.lt_of_lt_of_le Nat.zero_lt_one (Nat.le_max_right workers 1)

/-- What one more reply adds: the entries taken in and given out, and the completions. -/
theorem Tracks.extend (h : Tracks workers order log f) {f' : Frontier α} {e : Request α × Reply α} (more out : List α)
    (done : Nat) (hmore : accepted [e] = more) (hout : popped [e] = out) (hdone : completed [e] = done)
    (hworkers : f'.workers = f.workers) (horder : f'.order = f.order)
    (hstop : f'.stopRequested = true ↔ f.stopRequested = true ∨ e.1 = .stop)
    (hpending : f'.pending = f.pending + .ofNat more.length - .ofNat done)
    (htraced : Traced (accepted log ++ more) (popped log ++ out) f') : Tracks workers order (log ++ [e]) f' := by
  have haccepted : accepted (log ++ [e]) = accepted log ++ more := by
    rw [← hmore]
    exact List.filterMap_append
  have hpopped : popped (log ++ [e]) = popped log ++ out := by
    rw [← hout]
    exact List.filterMap_append
  have hcompleted : completed (log ++ [e]) = completed log + done := by
    rw [← hdone]
    exact List.countP_append
  refine ⟨hworkers.trans h.workers, horder.trans h.order, ?_, ?_, ?_⟩
  · rw [hstop, h.stopRequested, List.map_append, List.mem_append, List.map_singleton, List.mem_singleton, eq_comm (a := e.1)]
  · rw [hpending, h.pending, haccepted, hcompleted, List.length_append, UInt64.ofNat_add, UInt64.ofNat_add]
    grind
  · rw [haccepted, hpopped]
    exact htraced

theorem Tracks.extend_still (h : Tracks workers order log f) {f' : Frontier α} {e : Request α × Reply α} (done : Nat)
    (hmore : accepted [e] = []) (hout : popped [e] = []) (hdone : completed [e] = done)
    (hdeques : f'.deques = f.deques) (horder : f'.order = f.order)
    (hstop : f'.stopRequested = true ↔ f.stopRequested = true ∨ e.1 = .stop) (hpending : f'.pending = f.pending - .ofNat done) :
    Tracks workers order (log ++ [e]) f' := by
  refine h.extend [] [] done hmore hout hdone (congrArg List.length hdeques) horder hstop ?_ ?_
  · rw [hpending]
    exact congrArg (· - _) (UInt64.add_zero f.pending).symm
  · rw [List.append_nil, List.append_nil]
    exact h.traced.of_deques hdeques

theorem Tracks.pop (h : Tracks workers order log f) (hw : worker < f.workers) (pick : Nat) :
    Tracks workers order (log ++ [(.pop worker pick, (f.serve (.pop worker pick)).1)]) (f.serve (.pop worker pick)).2 := by
  rcases f.pop_cases pick hw with ⟨x, theft, f', hpop, -, -, halike⟩ | ⟨hpop, -⟩ | ⟨hpop, -⟩
  · simp only [Frontier.serve, hpop]
    refine h.extend [] [x] 0 rfl rfl rfl halike.workers halike.order (by simp [halike.stopRequested]) ?_ ?_
    · simp [halike.pending]
    · rw [List.append_nil]
      exact h.traced.pop hw hpop
  · simp only [Frontier.serve, hpop]
    exact h.extend_still 0 rfl rfl rfl rfl rfl (by simp) (by simp)
  · simp only [Frontier.serve, hpop]
    exact h.extend_still 0 rfl rfl rfl rfl rfl (by simp) (by simp)

/-- **One request**: the frontier stays what the transcript says. -/
theorem Tracks.serve (h : Tracks workers order log f) (q : Request α) (hq : ∀ w pick, q = .pop w pick → w < f.workers) :
    Tracks workers order (log ++ [(q, (f.serve q).1)]) (f.serve q).2 := by
  cases q with
  | seed x =>
    refine h.extend [x] [] 0 rfl rfl rfl (workers_seed f x) rfl ?_ ?_ ?_
    · simp [Frontier.serve, Frontier.seed, append, announce]
    · simp [Frontier.serve, Frontier.seed, append, announce]
    · rw [List.append_nil]
      exact (h.traced.append (Nat.mod_lt f.seeded h.pos) x).of_deques rfl
  | push w x =>
    by_cases hw : w < f.workers
    · have hpush : f.serve (.push w x) = (.accepted, f.announce.append w x) := by
        simp [Frontier.serve, push, hw]
      rw [hpush]
      refine h.extend [x] [] 0 rfl rfl rfl (workers_append f.announce w x) rfl ?_ ?_ ?_
      · simp [append, announce]
      · simp [append, announce]
      · rw [List.append_nil]
        exact (h.traced.append hw x).of_deques rfl
    · have hpush : f.serve (.push w x) = (.refused .invalidWorker, f) := by
        simp [Frontier.serve, push, hw]
      rw [hpush]
      exact h.extend_still 0 rfl rfl rfl rfl rfl (by simp) (by simp)
  | pop w pick => exact h.pop (hq w pick rfl) pick
  | complete => exact h.extend_still 1 rfl rfl rfl rfl rfl (by simp [Frontier.serve, Frontier.complete]) rfl
  | stop => exact h.extend_still 0 rfl rfl rfl rfl rfl (by simp [Frontier.serve, requestStop]) (by simp [Frontier.serve, requestStop])

theorem Tracks.ordered (h : Tracks workers order log f) : ∃ (given : List (α × Nat)) (line : Nat → List (α × Nat)),
    given.map Prod.fst = popped log ∧ (∀ v, (line v).map Prod.fst = f.queued v) ∧
    (accepted log).zipIdx.Perm (given ++ (List.range f.workers).flatMap line) ∧
    ∀ v, (line v).Sublist (accepted log).zipIdx := by
  obtain ⟨g, marked, rfl, hgiven, hholds⟩ := h.traced
  refine ⟨marked, g.queued, hgiven, fun v => (queued_map Prod.fst g v).symm, ?_, hholds.sublist⟩
  rw [workers_map, ← entries_eq_flatMap]
  exact hholds.perm

/-- No more entries are completed than were given out, so the count does not fall below zero. -/
theorem Tracks.pending_eq (h : Tracks workers order log f) (hdone : completed log ≤ (popped log).length) :
    f.pending = .ofNat ((accepted log).length - completed log) := by
  have hlen := h.traced.perm.length_eq
  rw [List.length_append] at hlen
  rw [h.pending, UInt64.ofNat_sub (by omega)]

/-- **All requests**: the frontier is what the transcript says. -/
theorem tracks_served (workers : Nat) (order : SearchOrder) {requests : List (Request α)}
    (h : ∀ w pick, .pop w pick ∈ requests → w < max workers 1) :
    Tracks workers order ((new workers order).transcript requests) ((new workers order).served requests) := by
  induction requests using List.reverseRecOn with
  | nil => exact tracks_new workers order
  | append_singleton past q ih =>
    have hpast := ih fun w pick hmem => h w pick (List.mem_append_left [q] hmem)
    rw [served_concat, transcript_concat]
    refine hpast.serve q fun w pick hq => ?_
    rw [hpast.workers]
    exact h w pick (by simp [hq])

end

end Frontier

/-! ## A queue and a stack -/

/-- A queue takes a new entry at its end, a stack at its top. -/
def SearchOrder.add (order : SearchOrder) (xs : List α) (x : α) : List α :=
  match order with
  | .breadthFirst => xs ++ [x]
  | .depthFirst => x :: xs

/-- What a queue or a stack answers to the pops among some requests: its first entry, and nothing once it was stopped. It is
the only worker's, and that is worker `0`. -/
def SearchOrder.pops (order : SearchOrder) : Bool → List α → List (Frontier.Request α) → List (Option α)
  | _, _, [] => []
  | stopped, xs, .seed x :: rest => order.pops stopped (order.add xs x) rest
  | stopped, xs, .push worker x :: rest => order.pops stopped (if worker = 0 then order.add xs x else xs) rest
  | false, xs, .pop _ _ :: rest => xs.head? :: order.pops false xs.tail rest
  | true, xs, .pop _ _ :: rest => none :: order.pops true xs rest
  | stopped, xs, .complete :: rest => order.pops stopped xs rest
  | _, xs, .stop :: rest => order.pops true xs rest

theorem SearchOrder.due_concat (order : SearchOrder) (xs : List α) (x : α) :
    order.due (xs ++ [x]) = order.add (order.due xs) x := by
  cases order with
  | breadthFirst => rfl
  | depthFirst => exact List.reverse_concat

namespace Frontier

variable {f : Frontier α}

theorem entries_solo (h : f.workers = 1) : f.entries = f.queued 0 := by
  rw [entries_eq_flatMap, h]
  simp

/-- The only worker takes the first entry that is due. -/
theorem pop_solo (h : f.workers = 1) (hs : f.stopRequested = false) (pick : Nat) :
    (f.pop 0 pick).1.given? = (f.order.due f.entries).head? ∧
      f.order.due (f.pop 0 pick).2.2.entries = (f.order.due f.entries).tail ∧ Alike f (f.pop 0 pick).2.2 := by
  have hw : 0 < f.workers := by omega
  have hunchanged (he : f.entries = []) : (f.order.due f.entries).head? = none ∧
      f.order.due f.entries = (f.order.due f.entries).tail := by
    have hperm := f.order.due_perm f.entries
    rw [he] at hperm ⊢
    rw [hperm.eq_nil]
    exact ⟨rfl, rfl⟩
  rcases f.pop_cases pick hw with ⟨x, theft, f', hpop, -, -, halike⟩ | ⟨hpop, -, he, -⟩ | ⟨hpop, hover⟩
  · have hq : f.queued 0 ≠ [] := by
      rw [← entries_solo h]
      exact entries_ne_nil_of_pop hw hpop
    obtain ⟨y, f₁, hown, hdue, -⟩ := pop_own hs hq pick
    cases hpop.symm.trans hown
    rw [hpop, entries_solo h, entries_solo (halike.workers.trans h), hdue]
    exact ⟨rfl, rfl, halike⟩
  · obtain ⟨hhead, htail⟩ := hunchanged he
    rw [hpop, hhead]
    exact ⟨rfl, htail, .refl f⟩
  · obtain ⟨hhead, htail⟩ := hunchanged (hover.resolve_left (by simp [hs])).1
    rw [hpop, hhead]
    exact ⟨rfl, htail, .refl f⟩

/-- **One worker**: the pops answer what a queue or a stack answers. -/
theorem answers_solo (h : f.workers = 1) {requests : List (Request α)} (hpops : ∀ w pick, .pop w pick ∈ requests → w = 0) :
    answers (f.transcript requests) = f.order.pops f.stopRequested (f.order.due f.entries) requests := by
  induction requests generalizing f with
  | nil => rfl
  | cons q rest ih =>
    have hrest : ∀ w pick, .pop w pick ∈ rest → w = 0 := fun w pick hmem => hpops w pick (List.mem_cons_of_mem q hmem)
    cases q with
    | seed x =>
      have hnext := ih (f := f.seed x) ((workers_seed f x).trans h) hrest
      rw [entries_seed_solo h, SearchOrder.due_concat] at hnext
      exact hnext
    | push w x =>
      by_cases hw : w = 0
      · subst hw
        have hpush : f.serve (.push 0 x) = (.accepted, f.announce.append 0 x) := by simp [serve, push, h]
        have hnext := ih (f := f.announce.append 0 x) ((workers_append f.announce 0 x).trans h) hrest
        rw [entries_append_solo (f := f.announce) h, SearchOrder.due_concat] at hnext
        rw [transcript, hpush]
        exact hnext
      · have hpush : f.serve (.push w x) = (.refused .invalidWorker, f) := by
          have hge : ¬ w < f.workers := by omega
          simp [serve, push, hge]
        rw [transcript, hpush, SearchOrder.pops, if_neg hw]
        exact ih h hrest
    | pop w pick =>
      cases hpops w pick List.mem_cons_self
      cases hs : f.stopRequested with
      | true =>
        have hpop : f.pop 0 pick = (.over, none, f) := by simp [pop, hs]
        have hnext := ih h hrest
        rw [hs] at hnext
        rw [transcript, serve, hpop, SearchOrder.pops, ← hnext]
        rfl
      | false =>
        obtain ⟨hhead, htail, halike⟩ := pop_solo h hs pick
        have hnext := ih (halike.workers.trans h) hrest
        rw [halike.order, halike.stopRequested, hs, htail] at hnext
        rw [SearchOrder.pops, ← hnext, ← hhead]
        rfl
    | complete => exact ih (f := f.complete) h hrest
    | stop => exact ih (f := f.requestStop) h hrest

/-! ## Conservation -/

/-- What a frontier does with entries, over a list of requests. -/
structure Conserves (f₀ : Frontier α) (requests : List (Request α)) : Prop where
  /-- Every accepted entry was given out or is queued, once. -/
  conserved : (accepted (f₀.transcript requests)).Perm
    (popped (f₀.transcript requests) ++ (f₀.served requests).entries)
  /-- So it is if equal entries are told apart by their places in the order of the pushes; and every deque lists its
  entries in that order. -/
  ordered : ∃ (given : List (α × Nat)) (line : Nat → List (α × Nat)),
    given.map Prod.fst = popped (f₀.transcript requests) ∧
    (∀ v, (line v).map Prod.fst = (f₀.served requests).queued v) ∧
    (accepted (f₀.transcript requests)).zipIdx.Perm (given ++ (List.range f₀.workers).flatMap line) ∧
    ∀ v, (line v).Sublist (accepted (f₀.transcript requests)).zipIdx
  /-- A worker with entries takes its oldest or its newest one, by the order of the search; no other deque changes. -/
  own : .stop ∉ requests → ∀ worker pick, (f₀.served requests).queued worker ≠ [] →
    ∃ x f', (f₀.served requests).pop worker pick = (.entry x, none, f') ∧
      f₀.order.due ((f₀.served requests).queued worker) = x :: f₀.order.due (f'.queued worker) ∧
      ∀ v, v ≠ worker → f'.queued v = (f₀.served requests).queued v
  /-- A worker without entries robs another that has some, if there is one. -/
  robs : .stop ∉ requests → ∀ worker, worker < f₀.workers → (f₀.served requests).queued worker = [] →
    (f₀.served requests).entries ≠ [] → ∀ pick, ∃ victim ∈ (f₀.served requests).victims worker,
      Robs (f₀.served requests) worker victim ((f₀.served requests).pop worker pick)
  /-- It can be any of them. -/
  victim : .stop ∉ requests → ∀ worker, worker < f₀.workers → (f₀.served requests).queued worker = [] →
    ∀ victim ∈ (f₀.served requests).victims worker, ∃ pick,
      Robs (f₀.served requests) worker victim ((f₀.served requests).pop worker pick)
  /-- The pending count is, as a word, the number of accepted entries that were not completed. -/
  pending : completed (f₀.transcript requests) ≤ (popped (f₀.transcript requests)).length →
    (f₀.served requests).pending =
      .ofNat ((accepted (f₀.transcript requests)).length - completed (f₀.transcript requests))
  /-- Without a request to stop, a pop tells that the search is over exactly if nothing is queued or pending, and to wait
  exactly if nothing is queued but something is pending. -/
  nothing : .stop ∉ requests → ∀ worker, worker < f₀.workers → ∀ pick,
    (((f₀.served requests).pop worker pick).1 = .over ↔
      (f₀.served requests).entries = [] ∧ (f₀.served requests).pending = 0) ∧
    (((f₀.served requests).pop worker pick).1 = .waiting ↔
      (f₀.served requests).entries = [] ∧ (f₀.served requests).pending ≠ 0)
  /-- After a request to stop, every pop tells that the search is over. -/
  stopped : .stop ∈ requests → ∀ worker pick, (f₀.served requests).pop worker pick = (.over, none, f₀.served requests)
  /-- A push for a worker is accepted, and the entry is the newest of its deque. -/
  taken : ∀ worker, worker < f₀.workers → ∀ x, ∃ f', (f₀.served requests).serve (.push worker x) = (.accepted, f') ∧
    f'.queued worker = (f₀.served requests).queued worker ++ [x] ∧
    ∀ v, v ≠ worker → f'.queued v = (f₀.served requests).queued v
  /-- A push for anyone else is refused, and changes nothing. -/
  refused : ∀ worker, f₀.workers ≤ worker → ∀ x,
    (f₀.served requests).push worker x = .error .invalidWorker ∧
    (f₀.served requests).serve (.push worker x) = (.refused .invalidWorker, f₀.served requests)
  /-- With one worker, the pops answer what a queue or a stack answers. -/
  solo : f₀.workers = 1 → answers (f₀.transcript requests) = f₀.order.pops false [] requests

theorem map_fst_transcript (f : Frontier α) (requests : List (Request α)) :
    (f.transcript requests).map Prod.fst = requests := by
  induction requests generalizing f with
  | nil => rfl
  | cons q requests ih => simp [transcript, ih]

/-- Without a request to stop, a pop answers nothing exactly if nothing is queued. -/
theorem pop_nothing {worker : Nat} (hw : worker < f.workers) (hs : f.stopRequested = false) (pick : Nat) :
    ((f.pop worker pick).1 = .over ↔ f.entries = [] ∧ f.pending = 0) ∧
      ((f.pop worker pick).1 = .waiting ↔ f.entries = [] ∧ f.pending ≠ 0) := by
  rcases f.pop_cases pick hw with ⟨x, theft, f', hpop, -⟩ | ⟨hpop, -, he, hp⟩ | ⟨hpop, hover⟩
  · have he := entries_ne_nil_of_pop hw hpop
    simp [hpop, he]
  · simp [hpop, he, hp]
  · obtain ⟨he, hp⟩ := hover.resolve_left (by simp [hs])
    simp [hpop, he, hp]

/-- **Entries are conserved**: for any number of workers, either order and any list of requests in which only workers pop,
a new frontier gives out every accepted entry at most once and keeps the others, each deque in the order of the pushes. -/
theorem entries_conserved (workers : Nat) (order : SearchOrder) (requests : List (Request α))
    (h : ∀ w pick, .pop w pick ∈ requests → w < max workers 1) : Conserves (new workers order) requests := by
  have htracks := tracks_served workers order h
  have hsame : ((new workers order).served requests).workers = (new workers order : Frontier α).workers := by
    rw [htracks.workers, workers_new]
  have horder : ((new workers order).served requests).order = (new workers order : Frontier α).order := htracks.order
  have hstop : ((new workers order).served requests).stopRequested = true ↔ .stop ∈ requests := by
    rw [htracks.stopRequested, map_fst_transcript]
  have hgo (hs : .stop ∉ requests) : ((new workers order).served requests).stopRequested = false :=
    Bool.eq_false_iff.2 fun htrue => hs (hstop.1 htrue)
  refine
    { conserved := htracks.traced.perm
      ordered := hsame ▸ htracks.ordered
      own := fun hs worker pick hq => horder ▸ pop_own (hgo hs) hq pick
      robs := fun hs worker hw hq he pick => ?_
      victim := fun hs worker hw hq victim hv => ?_
      pending := htracks.pending_eq
      nothing := fun hs worker hw pick => pop_nothing (hsame ▸ hw) (hgo hs) pick
      stopped := fun hs worker pick => by simp [pop, hstop.2 hs]
      taken := fun worker hw x => ?_
      refused := fun worker hw x => ?_
      solo := fun hone => ?_ }
  · obtain ⟨victim, hmem, hv⟩ := exists_victim (fun hnil => he (entries_of_no_victims hq hnil)) pick
    exact ⟨victim, hmem, pop_robs (hgo hs) (hsame ▸ hw) hq hv⟩
  · obtain ⟨pick, hpick⟩ := exists_pick hv
    exact ⟨pick, pop_robs (hgo hs) (hsame ▸ hw) hq hpick⟩
  · rw [← hsame] at hw
    refine ⟨((new workers order).served requests).announce.append worker x, by simp [serve, push, hw], ?_⟩
    exact queued_append (f := ((new workers order).served requests).announce) hw x
  · have hge : ¬ worker < ((new workers order).served requests).workers := by omega
    simp [serve, push, hge]
  · rw [answers_solo hone fun w pick hmem => ?_, entries_new]
    · cases order <;> rfl
    · have hw := h w pick hmem
      rw [← workers_new (α := α) workers order, hone] at hw
      omega

/-- Three workers with two equal entries: one push is for nobody, worker `1` steals two entries and worker `2` steals one of
these from it. -/
def heist : List (Request Nat) :=
  [.seed 4, .push 0 7, .push 0 7, .push 3 1, .push 0 8, .push 0 9, .pop 1 0, .complete, .pop 2 1, .pop 0 0]

theorem entries_conserved_heist : (∀ w pick, .pop w pick ∈ heist → w < max 3 1) ∧
    Conserves (new 3 .depthFirst) heist ∧
    popped ((new 3 .depthFirst).transcript heist) = [7, 4, 9] ∧
    ((new 3 .depthFirst).served heist).entries = [7, 8] ∧
    completed ((new 3 .depthFirst).transcript heist) ≤ (popped ((new 3 .depthFirst).transcript heist)).length ∧
    ((new 3 .depthFirst).served heist).pending = 4 := by
  have hpops : ∀ w pick, .pop w pick ∈ heist → w < max 3 1 := by
    intro w pick hmem
    simp only [heist, List.mem_cons, reduceCtorEq, Request.pop.injEq, List.not_mem_nil, false_or, or_false] at hmem
    omega
  exact ⟨hpops, entries_conserved 3 .depthFirst heist hpops, by decide, by decide, by decide, by decide⟩

end Frontier

end StateSpace
