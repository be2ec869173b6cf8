import StateSpace.Proofs.Frontier

/-!
# What a pop does to each deque

* `SearchOrder.due` : entries in the order in which a worker takes them;
* `takeLocal_due`, `queued_append`, `queued_grab`, `queued_deposit_ne` : what each step does to every deque;
* `pop_own`, `pop_robs` : a worker with entries takes the first that is due; one without first receives the older half of
  a victim's;
* `pop_sublist` : so after a pop each deque is part of one that was there before, in the same order;
* `Frontier.map`, `pop_map` : a frontier does not look at its entries, so renaming them before or after a pop is the same.
-/

namespace StateSpace

variable {α β : Type}

/-- Entries, given oldest first, in the order in which a worker takes them. -/
def SearchOrder.due (order : SearchOrder) (xs : List α) : List α :=
  match order with
  | .breadthFirst => xs
  | .depthFirst => xs.reverse

theorem SearchOrder.due_perm (order : SearchOrder) (xs : List α) : (order.due xs).Perm xs := by
  cases order with
  | breadthFirst => exact .refl xs
  | depthFirst => exact List.reverse_perm xs

theorem SearchOrder.sublist_of_due {order : SearchOrder} {xs ys : List α} {x : α}
    (h : order.due xs = x :: order.due ys) : ys.Sublist xs := by
  cases order with
  | breadthFirst =>
    have hxs : xs = x :: ys := h
    rw [hxs]
    exact List.sublist_cons_self x ys
  | depthFirst =>
    have hxs : xs = (x :: ys.reverse).reverse := List.reverse_eq_iff.1 h
    rw [hxs, List.reverse_cons, List.reverse_reverse]
    exact List.sublist_append_left ys [x]

namespace Frontier

variable {f f' : Frontier α} {worker victim pick : Nat}

/-! ## Single steps -/

theorem entries_eq_flatMap (f : Frontier α) : f.entries = (List.range f.workers).flatMap f.queued := by
  have hdeques : f.deques = (List.range f.workers).map fun v => f.deques[v]?.getD .empty := by
    refine List.ext_getElem (by simp [workers]) fun v hv _ => ?_
    simp [List.getElem?_eq_getElem hv]
  rw [entries, hdeques, List.flatMap_map]
  rfl

theorem queued_append (h : worker < f.workers) (x : α) : (f.append worker x).queued worker = f.queued worker ++ [x] ∧
    ∀ v, v ≠ worker → (f.append worker x).queued v = f.queued v := by
  obtain ⟨d, hd⟩ := getElem?_of_lt h
  refine ⟨by simp [queued, append, hd], fun v hv => ?_⟩
  simp [queued, append, Ne.symm hv]

theorem takeLocal_due {x : α} (h : f.takeLocal worker = some (x, f')) :
    f.order.due (f.queued worker) = x :: f.order.due (f'.queued worker) ∧
      ∀ v, v ≠ worker → f'.queued v = f.queued v := by
  rw [takeLocal_eq, Option.bind_eq_some_iff] at h
  obtain ⟨d, hd, htake⟩ := h
  obtain ⟨⟨y, d'⟩, hpop, hres⟩ := Option.map_eq_some_iff.1 htake
  cases hres
  have hlt := (List.getElem?_eq_some_iff.1 hd).1
  refine ⟨?_, fun v hv => by simp [queued, List.getElem?_set_ne (Ne.symm hv)]⟩
  simp only [queued, hd, Option.getD_some, List.getElem?_set_self hlt]
  split at hpop
  · rename_i horder
    rw [horder]
    exact Deque.toList_of_popOldest? hpop
  · rename_i horder
    rw [horder, Deque.toList_of_popNewest? hpop]
    exact List.reverse_concat

theorem takeLocal_of_nil (h : f.queued worker = []) : f.takeLocal worker = none := by
  cases ht : f.takeLocal worker with
  | none => rfl
  | some r =>
    obtain ⟨x, f'⟩ := r
    have hdue := (takeLocal_due ht).1
    have hlen := (f.order.due_perm (f.queued worker)).length_eq
    rw [hdue, h] at hlen
    cases hlen

/-- How many entries a thief takes from a victim. -/
def share (f : Frontier α) (victim : Nat) : Nat := max 1 ((f.queued victim).length / 2)

theorem length_take_share (h : f.queued victim ≠ []) : ((f.queued victim).take (f.share victim)).length = f.share victim := by
  have hpos := List.length_pos_of_ne_nil h
  rw [List.length_take, share]
  omega

theorem queued_grab (h : victim < f.workers) : (f.grab victim).1 = (f.queued victim).take (f.share victim) ∧
    (f.grab victim).2.queued victim = (f.queued victim).drop (f.share victim) ∧
    ∀ v, v ≠ victim → (f.grab victim).2.queued v = f.queued v := by
  refine ⟨rfl, ?_, fun v hv => ?_⟩
  · simp only [queued, grab, List.getElem?_set_self h, Option.getD_some, Deque.toList_splitOldest]
    rfl
  · simp only [queued, grab, List.getElem?_set_ne (Ne.symm hv)]

theorem queued_deposit_ne (taken : List α) {v : Nat} (h : v ≠ worker) :
    (f.deposit worker taken).queued v = f.queued v := by
  simp [queued, deposit, Ne.symm h]

/-! ## A pop -/

/-- A worker with entries of its own takes the first that is due, and no other deque changes. -/
theorem pop_own (hs : f.stopRequested = false) (hq : f.queued worker ≠ []) (pick : Nat) :
    ∃ x f', f.pop worker pick = (.entry x, none, f') ∧ f.order.due (f.queued worker) = x :: f.order.due (f'.queued worker) ∧
      ∀ v, v ≠ worker → f'.queued v = f.queued v := by
  obtain ⟨⟨x, f'⟩, ht⟩ := takeLocal_of_queued hq
  refine ⟨x, f', ?_, takeLocal_due ht⟩
  simp [pop, hs, ht]

/-- The answer of a pop in which a worker robs a victim: it receives the oldest of the victim's entries and takes of these
the first that is due. -/
def Robs (f : Frontier α) (worker victim : Nat) (r : Popped α × Option Theft × Frontier α) : Prop :=
  ∃ x f', r = (.entry x, some ⟨worker, victim, f.share victim⟩, f') ∧
    f.order.due ((f.queued victim).take (f.share victim)) = x :: f.order.due (f'.queued worker) ∧
    f'.queued victim = (f.queued victim).drop (f.share victim) ∧
    ∀ v, v ≠ worker → v ≠ victim → f'.queued v = f.queued v

theorem pop_robs (hs : f.stopRequested = false) (hw : worker < f.workers) (hq : f.queued worker = [])
    (hv : (f.victims worker)[pick % (f.victims worker).length]? = some victim) :
    Robs f worker victim (f.pop worker pick) := by
  obtain ⟨hlt, hne, hfull⟩ := mem_victims.1 (List.mem_of_getElem? hv)
  obtain ⟨htaken, hrest, hothers⟩ := queued_grab hlt
  have hw' : worker < (f.grab victim).2.workers := by
    rw [(entries_grab hlt).2.workers]
    exact hw
  have hloot : ((f.grab victim).2.deposit worker (f.grab victim).1).queued worker =
      (f.queued victim).take (f.share victim) := by
    -- the thief had nothing, so all it has now is what it stole
    rw [(entries_deposit hw' _).2.2, hothers worker (Ne.symm hne), hq, List.nil_append, htaken]
  have hlen := length_take_share hfull
  have hnonempty : ((f.grab victim).2.deposit worker (f.grab victim).1).queued worker ≠ [] := by
    rw [hloot, ← htaken]
    exact grab_ne_nil hfull
  obtain ⟨⟨x, f'⟩, ht⟩ := takeLocal_of_queued hnonempty
  obtain ⟨hdue, hsame⟩ := takeLocal_due ht
  refine ⟨x, f', ?_, ?_, ?_, ?_⟩
  · simp only [pop, hs, Bool.false_eq_true, if_false, takeLocal_of_nil hq, hv, ht]
    rw [htaken, hlen]
  · rw [← hloot]
    exact hdue
  · rw [hsame victim hne, queued_deposit_ne _ hne, hrest]
  · intro v hvw hvv
    rw [hsame v hvw, queued_deposit_ne _ hvw, hothers v hvv]

theorem exists_pick (h : victim ∈ f.victims worker) :
    ∃ pick, (f.victims worker)[pick % (f.victims worker).length]? = some victim := by
  obtain ⟨pick, hpick⟩ := List.mem_iff_getElem?.1 h
  refine ⟨pick, ?_⟩
  rw [Nat.mod_eq_of_lt (List.getElem?_eq_some_iff.1 hpick).1, hpick]

/-- Some victim is chosen if there is any. -/
theorem exists_victim (h : f.victims worker ≠ []) (pick : Nat) :
    ∃ victim ∈ f.victims worker, (f.victims worker)[pick % (f.victims worker).length]? = some victim := by
  have hlt := Nat.mod_lt pick (List.length_pos_of_ne_nil h)
  exact ⟨_, List.getElem_mem hlt, List.getElem?_eq_getElem hlt⟩

theorem entries_ne_nil_of_pop {x : α} {theft : Option Theft} (hw : worker < f.workers)
    (h : f.pop worker pick = (.entry x, theft, f')) : f.entries ≠ [] := by
  intro hnil
  have hperm := (pop_entry hw h).1
  rw [hnil] at hperm
  exact List.cons_ne_nil _ _ hperm.nil_eq.symm

/-- After a pop each deque is part of one that was there before: a thief's is part of its victim's, as it was empty. -/
theorem pop_sublist {x : α} {theft : Option Theft} (hw : worker < f.workers)
    (h : f.pop worker pick = (.entry x, theft, f')) (u : Nat) : ∃ v, (f'.queued u).Sublist (f.queued v) := by
  have hentries := entries_ne_nil_of_pop hw h
  have hs : f.stopRequested = false := by
    cases hs : f.stopRequested with
    | false => rfl
    | true =>
      rw [pop, hs] at h
      cases h
  by_cases hq : f.queued worker = []
  · obtain ⟨victim, hmem, hv⟩ := exists_victim (fun hnil => hentries (entries_of_no_victims hq hnil)) pick
    obtain ⟨y, f₁, hpop, hdue, hvictim, hothers⟩ := pop_robs hs hw hq hv
    cases h.symm.trans hpop
    by_cases huw : u = worker
    · rw [huw]
      exact ⟨victim, (SearchOrder.sublist_of_due hdue).trans (List.take_sublist _ _)⟩
    · by_cases huv : u = victim
      · rw [huv, hvictim]
        exact ⟨victim, List.drop_sublist _ _⟩
      · exact ⟨u, by rw [hothers u huw huv]⟩
  · obtain ⟨y, f₁, hpop, hdue, hothers⟩ := pop_own hs hq pick
    cases h.symm.trans hpop
    by_cases huw : u = worker
    · rw [huw]
      exact ⟨worker, SearchOrder.sublist_of_due hdue⟩
    · exact ⟨u, by rw [hothers u huw]⟩

end Frontier

/-! ## Renaming entries -/

namespace Deque

def map (g : α → β) (d : Deque α) : Deque β := ⟨d.front.map g, d.back.map g⟩

@[simp] theorem toList_map (g : α → β) (d : Deque α) : (d.map g).toList = d.toList.map g := by
  simp [map, toList]

theorem push_map (g : α → β) (d : Deque α) (x : α) : (d.map g).push (g x) = (d.push x).map g := rfl

theorem pushAll_map (g : α → β) (d : Deque α) (xs : List α) : (d.map g).pushAll (xs.map g) = (d.pushAll xs).map g := by
  induction xs generalizing d with
  | nil => rfl
  | cons x xs ih => exact ih (d.push x)

theorem popOldest?_renamed (g : α → β) (d : Deque α) :
    (d.map g).popOldest? = d.popOldest?.map (Prod.map g (map g)) := by
  obtain ⟨front, back⟩ := d
  cases front with
  | cons x front => rfl
  | nil =>
    simp only [popOldest?, map, List.map_nil, ← List.map_reverse]
    cases back.reverse <;> rfl

theorem popNewest?_renamed (g : α → β) (d : Deque α) :
    (d.map g).popNewest? = d.popNewest?.map (Prod.map g (map g)) := by
  obtain ⟨front, back⟩ := d
  cases back with
  | cons x back => rfl
  | nil =>
    simp only [popNewest?, map, List.map_nil, ← List.map_reverse]
    cases front.reverse <;> rfl

theorem splitOldest_map (g : α → β) (d : Deque α) (n : Nat) :
    (d.map g).splitOldest n = ((d.splitOldest n).1.map g, (d.splitOldest n).2.map g) := by
  have hofList (xs : List α) : (ofList xs).map g = ofList (xs.map g) := rfl
  simp only [splitOldest, toList_map, hofList, List.map_take, List.map_drop]

end Deque

namespace Frontier

def map (g : α → β) (f : Frontier α) : Frontier β :=
  ⟨f.order, f.deques.map (Deque.map g), f.seeded, f.pending, f.stopRequested, f.stolen⟩

def Popped.map (g : α → β) : Popped α → Popped β
  | .entry x => .entry (g x)
  | .over => .over
  | .waiting => .waiting

variable (g : α → β) (f : Frontier α)

theorem new_map (workers : Nat) (order : SearchOrder) : (new workers order : Frontier α).map g = new workers order := by
  simp [map, new, Deque.map, Deque.empty]

@[simp] theorem workers_map : (f.map g).workers = f.workers := by simp [workers, map]

@[simp] theorem queued_map (v : Nat) : (f.map g).queued v = (f.queued v).map g := by
  simp only [queued, map, List.getElem?_map]
  cases f.deques[v]? with
  | none => rfl
  | some d => exact Deque.toList_map g d

@[simp] theorem entries_map : (f.map g).entries = f.entries.map g := by
  simp [entries, map, List.map_flatMap, List.flatMap_map]

theorem append_map (worker : Nat) (x : α) : (f.map g).append worker (g x) = (f.append worker x).map g := by
  simp only [append, map, mk.injEq, true_and, and_true]
  refine List.ext_getElem? fun v => ?_
  by_cases hv : worker = v <;> simp [hv, Function.comp_def, Deque.push_map]

theorem takeLocal_map (worker : Nat) :
    (f.map g).takeLocal worker = (f.takeLocal worker).map (Prod.map g (map g)) := by
  obtain ⟨order, deques, seeded, pending, stopRequested, stolen⟩ := f
  simp only [takeLocal_eq, map, List.getElem?_map]
  cases deques[worker]? with
  | none => rfl
  | some d =>
    cases order with
    | breadthFirst =>
      simp only [Option.map_some, Option.bind_some, Deque.popOldest?_renamed, Option.map_map]
      cases d.popOldest? <;> simp [map, List.map_set]
    | depthFirst =>
      simp only [Option.map_some, Option.bind_some, Deque.popNewest?_renamed, Option.map_map]
      cases d.popNewest? <;> simp [map, List.map_set]

theorem victims_map (worker : Nat) : (f.map g).victims worker = f.victims worker := by
  simp [victims]

theorem grab_map (victim : Nat) :
    (f.map g).grab victim = ((f.grab victim).1.map g, (f.grab victim).2.map g) := by
  have hdeque : (f.map g).deques[victim]?.getD .empty = (f.deques[victim]?.getD .empty).map g := by
    simp only [map, List.getElem?_map]
    cases f.deques[victim]? <;> rfl
  simp only [grab, hdeque, Deque.toList_map, List.length_map, Deque.splitOldest_map]
  simp [map, List.map_set]

theorem deposit_map (thief : Nat) (taken : List α) :
    (f.map g).deposit thief (taken.map g) = (f.deposit thief taken).map g := by
  simp only [deposit, map, List.length_map, mk.injEq, true_and, and_true]
  refine List.ext_getElem? fun v => ?_
  by_cases hv : thief = v <;> simp [hv, Function.comp_def, Deque.pushAll_map]

/-- **A frontier does not look at its entries**: popping from renamed entries is popping and renaming. -/
theorem pop_map (worker pick : Nat) : (f.map g).pop worker pick =
    ((f.pop worker pick).1.map g, (f.pop worker pick).2.1, (f.pop worker pick).2.2.map g) := by
  have hstop : (f.map g).stopRequested = f.stopRequested := rfl
  have hexhausted : (f.map g).exhausted = f.exhausted := rfl
  unfold pop
  rw [hstop]
  cases f.stopRequested with
  | true => rfl
  | false =>
    simp only [Bool.false_eq_true, if_false, takeLocal_map, victims_map, hexhausted]
    cases f.takeLocal worker with
    | some r => rfl
    | none =>
      dsimp only [Option.map_none]
      cases (f.victims worker)[pick % (f.victims worker).length]? with
      | none => cases f.exhausted <;> rfl
      | some victim =>
        simp only [grab_map, deposit_map, takeLocal_map, List.length_map]
        cases ((f.grab victim).2.deposit worker (f.grab victim).1).takeLocal worker <;> rfl

end Frontier

end StateSpace
