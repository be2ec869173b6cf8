import StateSpace.Proofs.Frontier

/-!
# Workers that share a frontier, step by step

A push and a pop are several steps each, and between two of them other workers may act: an entry that is being pushed is
counted before it is in a deque, and stolen entries are in no deque until the thief has put them down.

* `Station` : where a worker is between two steps;
* `Station.next` : the next step of a worker, through the operations of the frontier;
* `Crew` : a frontier and a station for each worker; `Crew.Move`, `Crew.play` : any interleaving of their steps, and
  requests to stop at any time;
* `Station.Shifts`, `next_cases` : a step only moves entries, or announces a new one, or completes one;
  `next_eq_dismissed` : why a pop answers nothing;
* `play_push`, `play_pop` : without steps of others between, a push and a pop are those of the frontier.
-/

namespace StateSpace

/-- Where a worker is between two steps. -/
inductive Station (α : Type) where
  /-- About to see whether a stop was requested. -/
  | asking
  /-- About to take an entry of its own deque. -/
  | looking
  /-- About to try to steal, the given number of times. -/
  | prowling (attempts : Nat)
  /-- With stolen entries that are in no deque. -/
  | carrying (loot : List α)
  /-- About to look into its own deque again. -/
  | checking
  /-- Found nothing; about to see whether anything is pending. -/
  | counting
  /-- With a popped entry that is not completed. -/
  | holding (x : α)
  /-- With a popped entry, and a new one that is counted and in no deque. -/
  | pushing (x y : α)
  /-- Was told that there is nothing to pop, because of a request to stop or because nothing is pending. -/
  | dismissed (stopped : Bool)
  deriving DecidableEq, Repr

/-- What the program leaves to a worker or to chance. -/
inductive Choice (α : Type) where
  /-- To go on: an attempt to steal fails, as a deque is in use or its own; a held entry is completed. -/
  | go
  /-- To steal from a worker. -/
  | victim (v : Nat)
  /-- To push an entry. -/
  | push (y : α)
  deriving DecidableEq, Repr

namespace Station

variable {α : Type}

def loot : Station α → List α
  | .carrying loot => loot
  | _ => []

def held : Station α → List α
  | .holding x | .pushing x _ => [x]
  | _ => []

/-- The entry a worker has counted and not appended. -/
def announced : Station α → List α
  | .pushing _ y => [y]
  | _ => []

def entries (st : Station α) : List α := st.loot ++ st.held ++ st.announced

/-- How often a worker tries to steal before it looks elsewhere; with no other worker there is nobody to steal from. -/
def attempts (f : Frontier α) : Nat := if 1 < f.workers then f.workers else 0

/-- The next step of a worker: where it is then, and the frontier. -/
def next (worker : Nat) (choice : Choice α) (f : Frontier α) : Station α → Station α × Frontier α
  | .asking => (if f.stopRequested then .dismissed true else .looking, f)
  | .looking =>
    match f.takeLocal worker with
    | some (x, f) => (.holding x, f)
    | none => (.prowling (attempts f), f)
  | .prowling 0 => (.checking, f)
  | .prowling (n + 1) =>
    match choice with
    | .victim v =>
      if v = worker ∨ (f.queued v).isEmpty then (.prowling n, f)
      else (.carrying (f.grab v).1, (f.grab v).2)
    | _ => (.prowling n, f)
  | .carrying loot => (.checking, f.deposit worker loot)
  | .checking => (if (f.queued worker).isEmpty then .counting else .asking, f)
  | .counting => (if f.exhausted then .dismissed false else .asking, f)
  | .holding x =>
    match choice with
    | .push y => (.pushing x y, f.announce)
    | _ => (.asking, f.complete)
  | .pushing x y => (.holding x, f.append worker y)
  | .dismissed stopped => (.dismissed stopped, f)

end Station

structure Crew (α : Type) where
  frontier : Frontier α
  stations : List (Station α)

namespace Crew

variable {α : Type}

inductive Move (α : Type) where
  | work (worker : Nat) (choice : Choice α)
  | stop
  deriving DecidableEq, Repr

def step (c : Crew α) (worker : Nat) (choice : Choice α) : Crew α :=
  match c.stations[worker]? with
  | none => c
  | some st => ⟨(st.next worker choice c.frontier).2, c.stations.set worker (st.next worker choice c.frontier).1⟩

def move (c : Crew α) : Move α → Crew α
  | .work worker choice => c.step worker choice
  | .stop => { c with frontier := c.frontier.requestStop }

def play (c : Crew α) (moves : List (Move α)) : Crew α := moves.foldl move c

/-- The crew when its workers start: entries were handed to them in turn. -/
def start (workers : Nat) (order : SearchOrder) (seeds : List α) : Crew α :=
  ⟨seeds.foldl Frontier.seed (.new workers order), List.replicate (max workers 1) .asking⟩

theorem step_eq {c : Crew α} {w : Nat} {st : Station α} (h : c.stations[w]? = some st) (choice : Choice α) :
    c.step w choice = ⟨(st.next w choice c.frontier).2, c.stations.set w (st.next w choice c.frontier).1⟩ := by
  rw [step, h]

end Crew

/-! ## What a step does -/

namespace Station

variable {α : Type}

/-- A step that only moves entries between the deques and the worker's hands. -/
structure Shifts (f : Frontier α) (st : Station α) (r : Station α × Frontier α) : Prop where
  entries : (r.2.entries ++ r.1.entries).Perm (f.entries ++ st.entries)
  pending : r.2.pending = f.pending
  workers : r.2.workers = f.workers
  not_holding : ∀ x, st ≠ .holding x

theorem Shifts.still {f : Frontier α} {st st' : Station α} (h : st'.entries = st.entries) (hst : ∀ x, st ≠ .holding x) :
    Shifts f st (st', f) :=
  ⟨by rw [h], rfl, rfl, hst⟩

theorem lt_of_queued {f : Frontier α} {v : Nat} (h : f.queued v ≠ []) : v < f.workers := by
  by_contra hge
  have hnone : f.deques[v]? = none := List.getElem?_eq_none (Nat.le_of_not_lt hge)
  exact h (by simp [Frontier.queued, hnone])

theorem shifts_looking {f : Frontier α} (w : Nat) (choice : Choice α) :
    Shifts f .looking (next w choice f .looking) := by
  unfold next
  cases ht : f.takeLocal w with
  | none => exact .still rfl (by simp)
  | some r =>
    obtain ⟨hperm, halike⟩ := Frontier.entries_of_takeLocal ht
    refine ⟨?_, halike.pending, halike.workers, by simp⟩
    have hback := (List.perm_append_singleton r.1 r.2.entries).trans hperm.symm
    simpa [Station.entries, loot, held, announced] using hback

theorem shifts_prowling {f : Frontier α} (w : Nat) (choice : Choice α) (n : Nat) :
    Shifts f (.prowling n) (next w choice f (.prowling n)) := by
  cases n with
  | zero => exact .still rfl (by simp)
  | succ n =>
    cases choice with
    | go => exact .still rfl (by simp)
    | push y => exact .still rfl (by simp)
    | victim v =>
      unfold next
      dsimp only
      split
      · exact .still rfl (by simp)
      · rename_i hv
        have hq : f.queued v ≠ [] := fun h => hv (Or.inr (by simp [h]))
        obtain ⟨hperm, halike⟩ := Frontier.entries_grab (lt_of_queued hq)
        refine ⟨?_, halike.pending, halike.workers, by simp⟩
        simpa [Station.entries, loot, held, announced] using List.perm_append_comm.trans hperm.symm

theorem shifts_carrying {f : Frontier α} {w : Nat} (hw : w < f.workers) (choice : Choice α) (loot : List α) :
    Shifts f (.carrying loot) (next w choice f (.carrying loot)) := by
  obtain ⟨hperm, halike, -⟩ := Frontier.entries_deposit hw loot
  refine ⟨?_, halike.pending, halike.workers, by simp⟩
  simpa [Station.entries, Station.loot, held, announced, next] using hperm.trans List.perm_append_comm

theorem shifts_pushing {f : Frontier α} {w : Nat} (hw : w < f.workers) (choice : Choice α) (x y : α) :
    Shifts f (.pushing x y) (next w choice f (.pushing x y)) := by
  refine ⟨?_, rfl, Frontier.workers_append f w y, by simp⟩
  have happ := (Frontier.entries_append hw y).append_right [x]
  have hlast := List.perm_append_singleton y (f.entries ++ [x])
  rw [List.append_assoc] at hlast
  exact happ.trans hlast.symm

/-- **What a step can do.** It only moves entries; or a worker that holds an entry announces a new one, or completes the one
it holds. -/
theorem next_cases {f : Frontier α} {w : Nat} (choice : Choice α) (st : Station α) (hw : w < f.workers) :
    Shifts f st (st.next w choice f) ∨
    (∃ x y, st = .holding x ∧ choice = .push y ∧ st.next w choice f = (.pushing x y, f.announce)) ∨
    (∃ x, st = .holding x ∧ (∀ y, choice ≠ .push y) ∧ st.next w choice f = (.asking, f.complete)) := by
  cases st with
  | asking =>
    refine Or.inl (.still ?_ (by simp))
    split <;> rfl
  | looking => exact Or.inl (shifts_looking w choice)
  | prowling n => exact Or.inl (shifts_prowling w choice n)
  | carrying loot => exact Or.inl (shifts_carrying hw choice loot)
  | checking =>
    refine Or.inl (.still ?_ (by simp))
    split <;> rfl
  | counting =>
    refine Or.inl (.still ?_ (by simp))
    split <;> rfl
  | holding x =>
    right
    cases choice with
    | push y => exact Or.inl ⟨x, y, rfl, rfl, rfl⟩
    | go => exact Or.inr ⟨x, rfl, by simp, rfl⟩
    | victim v => exact Or.inr ⟨x, rfl, by simp, rfl⟩
  | pushing x y => exact Or.inl (shifts_pushing hw choice x y)
  | dismissed stopped => exact Or.inl (.still rfl (by simp))

/-- A pop answers nothing because of a request to stop, or because nothing is pending. -/
theorem next_eq_dismissed {f : Frontier α} {w : Nat} {choice : Choice α} {st : Station α} {stopped : Bool}
    (hst : ∀ b, st ≠ .dismissed b) (h : (st.next w choice f).1 = .dismissed stopped) :
    stopped = true ∧ f.stopRequested = true ∨ stopped = false ∧ f.exhausted = true := by
  cases st with
  | asking =>
    simp only [next] at h
    split at h
    · cases h
      exact Or.inl ⟨rfl, by assumption⟩
    · cases h
  | counting =>
    simp only [next] at h
    split at h
    · cases h
      exact Or.inr ⟨rfl, by assumption⟩
    · cases h
  | looking | checking | holding =>
    simp only [next] at h
    split at h <;> cases h
  | prowling n =>
    cases n with
    | zero => cases h
    | succ n =>
      simp only [next] at h
      split at h
      · split at h <;> cases h
      · cases h
  | carrying | pushing => cases h
  | dismissed b => exact absurd rfl (hst b)

/-! ## A push and a pop without interruption -/

/-- Steps of one worker while no other acts. -/
def walk (worker : Nat) (choices : List (Choice α)) (p : Station α × Frontier α) : Station α × Frontier α :=
  choices.foldl (fun p choice => p.1.next worker choice p.2) p

/-- Where a worker is when a pop has answered. -/
def ofPopped (f : Frontier α) : Frontier.Popped α → Station α
  | .entry x => .holding x
  | .over => .dismissed f.stopRequested
  | .waiting => .asking

theorem walk_prowling (w : Nat) (f : Frontier α) (n : Nat) :
    walk w (List.replicate (n + 1) .go) (.prowling n, f) = (.checking, f) := by
  induction n with
  | zero => rfl
  | succ n ih => exact ih

theorem next_looking_some {w : Nat} {f : Frontier α} {r : α × Frontier α} (h : f.takeLocal w = some r)
    (choice : Choice α) : next w choice f .looking = (.holding r.1, r.2) := by
  simp only [next, h]

theorem next_looking_none {w : Nat} {f : Frontier α} (h : f.takeLocal w = none) (choice : Choice α) :
    next w choice f .looking = (.prowling (attempts f), f) := by
  simp only [next, h]

theorem walk_empty {w : Nat} {f : Frontier α} (h : f.takeLocal w = none) :
    ∃ choices, walk w choices (.looking, f) = (if f.exhausted then .dismissed false else .asking, f) := by
  refine ⟨.go :: (List.replicate (attempts f + 1) .go ++ [.go, .go]), ?_⟩
  have hown : f.queued w = [] := Frontier.takeLocal_eq_none h
  rw [walk, List.foldl_cons, next_looking_none h, List.foldl_append]
  have hp := walk_prowling w f (attempts f)
  unfold walk at hp
  rw [hp]
  simp [next, hown]

/-- A thief has something in its deque once it has put down what it has stolen. -/
theorem queued_of_steal {w v : Nat} {f : Frontier α} (hw : w < f.workers) (hv : v ∈ f.victims w) :
    ((f.grab v).2.deposit w (f.grab v).1).queued w ≠ [] := by
  obtain ⟨hlt, -, hq⟩ := Frontier.mem_victims.1 hv
  have hw' : w < (f.grab v).2.workers := by
    rw [(Frontier.entries_grab hlt).2.workers]
    exact hw
  rw [(Frontier.entries_deposit hw' _).2.2]
  simp [Frontier.grab_ne_nil hq]

/-- A worker that steals takes the first of what it has stolen. -/
theorem walk_steal {w v : Nat} {f : Frontier α} {r : α × Frontier α} (h : f.takeLocal w = none)
    (hs : f.stopRequested = false) (hw : w < f.workers) (hv : v ∈ f.victims w)
    (hr : ((f.grab v).2.deposit w (f.grab v).1).takeLocal w = some r) :
    ∃ choices, walk w choices (.looking, f) = (.holding r.1, r.2) := by
  obtain ⟨hlt, hne, hq⟩ := Frontier.mem_victims.1 hv
  have hmany : attempts f = f.workers - 1 + 1 := by
    rw [attempts, if_pos (by omega)]
    omega
  have hfull := queued_of_steal hw hv
  have hgo : ((f.grab v).2.deposit w (f.grab v).1).stopRequested = false := hs
  refine ⟨[.go, .victim v, .go, .go, .go, .go], ?_⟩
  rw [walk, List.foldl_cons, next_looking_none h, hmany]
  simp [next, hne, hq, hfull, hgo, hr]

theorem walk_pop {w : Nat} {f : Frontier α} (pick : Nat) (hw : w < f.workers) :
    ∃ choices, walk w choices (.asking, f) = (ofPopped f (f.pop w pick).1, (f.pop w pick).2.2) := by
  unfold Frontier.pop
  cases hs : f.stopRequested with
  | true => exact ⟨[.go], by simp [walk, next, hs, ofPopped]⟩
  | false =>
    have hgo (choices : List (Choice α)) : walk w (.go :: choices) (.asking, f) = walk w choices (.looking, f) := by
      simp [walk, next, hs]
    simp only [Bool.false_eq_true, if_false]
    cases ht : f.takeLocal w with
    | some r => exact ⟨[.go, .go], by rw [hgo]; exact next_looking_some ht .go⟩
    | none =>
      cases hv : (f.victims w)[pick % (f.victims w).length]? with
      | none =>
        obtain ⟨choices, hwalk⟩ := walk_empty ht
        refine ⟨.go :: choices, ?_⟩
        rw [hgo, hwalk]
        cases f.exhausted <;> simp [ofPopped, hs]
      | some v =>
        have hmem := List.mem_of_getElem? hv
        obtain ⟨r, hr⟩ := Frontier.takeLocal_of_queued (queued_of_steal hw hmem)
        obtain ⟨choices, hwalk⟩ := walk_steal ht hs hw hmem hr
        exact ⟨.go :: choices, by rw [hgo, hwalk]; simp only [hr, ofPopped]⟩

end Station

namespace Crew

variable {α : Type}

theorem play_walk {c : Crew α} {w : Nat} {st : Station α} (h : c.stations[w]? = some st) (choices : List (Choice α)) :
    c.play (choices.map (.work w)) =
      ⟨(Station.walk w choices (st, c.frontier)).2, c.stations.set w (Station.walk w choices (st, c.frontier)).1⟩ := by
  induction choices generalizing c st with
  | nil =>
    obtain ⟨hlt, hst⟩ := List.getElem?_eq_some_iff.1 h
    simp [play, Station.walk, ← hst]
  | cons choice choices ih =>
    have hlt := (List.getElem?_eq_some_iff.1 h).1
    have hstep := step_eq h choice
    have hnext : (c.step w choice).stations[w]? = some (st.next w choice c.frontier).1 := by
      rw [hstep]
      simp [hlt]
    rw [List.map_cons, play, List.foldl_cons]
    refine (ih hnext).trans ?_
    rw [hstep]
    simp [Station.walk]

/-- **A push that is not interrupted** is that of the frontier. -/
theorem play_push {c : Crew α} {w : Nat} {x : α} (hw : w < c.frontier.workers)
    (h : c.stations[w]? = some (.holding x)) (y : α) :
    c.frontier.push w y = .ok (c.play [.work w (.push y), .work w .go]).frontier ∧
      (c.play [.work w (.push y), .work w .go]).stations = c.stations := by
  obtain ⟨hlt, hst⟩ := List.getElem?_eq_some_iff.1 h
  have hwalk := play_walk h [.push y, .go]
  simp only [List.map_cons, List.map_nil] at hwalk
  rw [hwalk]
  refine ⟨by rw [Frontier.push, if_pos hw]; rfl, ?_⟩
  show c.stations.set w (.holding x) = c.stations
  rw [← hst, List.set_getElem_self]

/-- **A pop that is not interrupted** can be that of the frontier, whomever it picks to steal from. -/
theorem play_pop {c : Crew α} {w : Nat} (pick : Nat) (hw : w < c.frontier.workers) (h : c.stations[w]? = some .asking) :
    ∃ choices : List (Choice α), c.play (choices.map (.work w)) = ⟨(c.frontier.pop w pick).2.2,
      c.stations.set w (.ofPopped c.frontier (c.frontier.pop w pick).1)⟩ := by
  obtain ⟨choices, hwalk⟩ := Station.walk_pop pick hw
  exact ⟨choices, by rw [play_walk h, hwalk]⟩

end Crew

end StateSpace
