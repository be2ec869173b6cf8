import Mathlib.Algebra.Ring.Nat
import Mathlib.Data.List.Nodup
import Mathlib.Data.Set.Card
import StateSpace.Proofs.Search.Reasons
import StateSpace.Proofs.Systems.TwoPhase.Agreement

/-!
# How many states two-phase commit has

* `assemble_inj` : a state shows what it is assembled from;
* `forms n` : the list of all forms, without repetition and of length `4 ^ n + 2 ^ n + 6 ^ n`;
* `state_census` : so that is how many states are reachable, and how many a search reports.
-/

namespace StateSpace.TwoPhase

/-! ## Counting forms -/

/-- The lists of the given length with elements of a list. -/
def tuples {β : Type} (xs : List β) : Nat → List (List β)
  | 0 => [[]]
  | n + 1 => (xs ×ˢ tuples xs n).map fun p => p.1 :: p.2

theorem mem_tuples {β : Type} {xs ys : List β} {n : Nat} :
    ys ∈ tuples xs n ↔ ys.length = n ∧ ∀ y ∈ ys, y ∈ xs := by
  induction n generalizing ys with
  | zero =>
    rw [tuples, List.mem_singleton, List.length_eq_zero_iff]
    constructor
    · rintro rfl
      exact ⟨rfl, fun y hy => by cases hy⟩
    · exact fun h => h.1
  | succ n ih =>
    cases ys with
    | nil => simp [tuples]
    | cons y ys =>
      simp only [tuples, List.mem_map, Prod.exists, List.mem_product, ih, List.cons.injEq, List.length_cons,
        Nat.add_right_cancel_iff, List.forall_mem_cons]
      constructor
      · rintro ⟨z, zs, ⟨hz, hlength, hzs⟩, rfl, rfl⟩
        exact ⟨hlength, hz, hzs⟩
      · rintro ⟨hlength, hy, hys⟩
        exact ⟨y, ys, ⟨hy, hlength, hys⟩, rfl, rfl⟩

theorem length_tuples {β : Type} (xs : List β) (n : Nat) : (tuples xs n).length = xs.length ^ n := by
  induction n with
  | zero => rfl
  | succ n ih => rw [tuples, List.length_map, List.length_product, ih, Nat.pow_succ, Nat.mul_comm]

theorem nodup_tuples {β : Type} {xs : List β} (h : xs.Nodup) (n : Nat) : (tuples xs n).Nodup := by
  induction n with
  | zero => exact List.nodup_singleton _
  | succ n ih =>
    refine (h.product ih).map fun p q hpq => ?_
    rw [List.cons.injEq] at hpq
    exact Prod.ext hpq.1 hpq.2

theorem assemble_inj {tm tm' : TmState} {xs ys : List Stance} (h : assemble tm xs = assemble tm' ys) :
    tm = tm' ∧ xs = ys := by
  have htm : tm = tm' := congrArg State.tm h
  subst htm
  refine ⟨rfl, List.ext_getElem? fun i => ?_⟩
  have hrm : xs[i]?.map Stance.rm = ys[i]?.map Stance.rm := by
    simpa [assemble] using congrArg (·.rms[i]?) h
  have hheard : xs[i]?.map Stance.heard = ys[i]?.map Stance.heard := by
    simpa [assemble] using congrArg (·.tmPrepared[i]?) h
  have hsent : Message.prepared i ∈ (assemble tm xs).msgs ↔ Message.prepared i ∈ (assemble tm ys).msgs := by rw [h]
  rw [prepared_mem_assemble, prepared_mem_assemble] at hsent
  cases hx : xs[i]? with
  | none =>
    rw [hx] at hrm
    exact (Option.map_eq_none_iff.1 hrm.symm).symm
  | some x =>
    cases hy : ys[i]? with
    | none =>
      rw [hx, hy] at hrm
      cases hrm
    | some y =>
      rw [hx, hy] at hrm hheard hsent
      have hsent' : x.sent = y.sent := Bool.eq_iff_iff.2 (by simpa using hsent)
      cases x
      cases y
      simp_all

def forms (n : Nat) : List State :=
  [TmState.init, .committed, .aborted].flatMap fun tm => (tuples (stances tm) n).map (assemble tm)

theorem mem_forms {n : Nat} {s : State} : s ∈ forms n ↔ IsForm n s := by
  have htm : ∀ tm : TmState, tm ∈ [TmState.init, .committed, .aborted] := by
    intro tm
    cases tm <;> decide
  simp only [forms, List.mem_flatMap, List.mem_map, mem_tuples]
  constructor
  · rintro ⟨tm, -, xs, ⟨hlength, hxs⟩, rfl⟩
    exact ⟨tm, xs, hlength, hxs, rfl⟩
  · rintro ⟨tm, xs, hlength, hxs, rfl⟩
    exact ⟨tm, htm tm, xs, ⟨hlength, hxs⟩, rfl⟩

theorem nodup_forms (n : Nat) : (forms n).Nodup := by
  rw [forms, List.nodup_flatMap]
  constructor
  · intro tm _
    have hstances : (stances tm).Nodup := by
      cases tm <;> decide
    exact (nodup_tuples hstances n).map fun xs ys h => (assemble_inj h).2
  · -- forms with different states of the transaction manager differ
    have hdisjoint : ∀ tm tm' : TmState, tm ≠ tm' →
        List.Disjoint ((tuples (stances tm) n).map (assemble tm)) ((tuples (stances tm') n).map (assemble tm')) := by
      intro tm tm' hne s hs hs'
      obtain ⟨xs, -, rfl⟩ := List.mem_map.1 hs
      obtain ⟨ys, -, heq⟩ := List.mem_map.1 hs'
      exact hne (assemble_inj heq).1.symm
    refine List.Pairwise.imp (fun {tm tm'} hne => hdisjoint tm tm' hne) (?_ : List.Pairwise (· ≠ ·) _)
    decide

theorem length_forms (n : Nat) : (forms n).length = 2 ^ n + 4 ^ n + 6 ^ n := by
  simp only [forms, List.flatMap_cons, List.flatMap_nil, List.append_nil, List.length_append, List.length_map, length_tuples]
  show 4 ^ n + (2 ^ n + 6 ^ n) = _
  omega

/-! ## Searching -/

theorem model_total (n : Nat) : (model n).Total where
  boundary _ _ := ⟨true, rfl⟩
  actions _ _ := ⟨_, rfl⟩
  next _ _ _ _ _ _ := ⟨_, rfl⟩
  conditions t _ p hp := by
    simp only [model, properties, List.mem_cons, List.not_mem_nil, or_false] at hp
    rcases hp with rfl | rfl | rfl
    · exact ⟨_, rfl⟩
    · exact ⟨_, rfl⟩
    · exact ⟨_, rfl⟩

theorem reachable_replicate (n : Nat) {tm : TmState} {x : Stance} (hx : x ∈ stances tm) :
    (model n).Reachable (assemble tm (List.replicate n x)) := by
  refine reachable_of_isForm ⟨tm, _, List.length_replicate, fun y hy => ?_, rfl⟩
  rwa [List.eq_of_mem_replicate hy]

theorem allIn_replicate (n : Nat) (tm : TmState) (x : Stance) :
    (assemble tm (List.replicate n x)).allIn x.rm = true := by
  simp [State.allIn, assemble]

theorem model_meets (n : Nat) : ∀ p ∈ (model n).properties, (model n).Meets p := by
  intro p hp
  simp only [model, properties, List.mem_cons, List.not_mem_nil, or_false] at hp
  rcases hp with rfl | rfl | rfl
  · have hx : (⟨.aborted, false, false⟩ : Stance) ∈ stances .init := by decide
    exact ⟨_, reachable_replicate n hx, congrArg Except.ok (allIn_replicate n _ _)⟩
  · have hx : (⟨.committed, true, true⟩ : Stance) ∈ stances .committed := by decide
    exact ⟨_, reachable_replicate n hx, congrArg Except.ok (allIn_replicate n _ _)⟩
  · exact fun t ht => congrArg Except.ok (consistent_of_reachable ht)

/-- **The states of two-phase commit** are the forms, `2 ^ n + 4 ^ n + 6 ^ n` of them for `n` resource managers, and a
search without bounds counts them. -/
theorem state_census (n : Nat) :
    (∀ s, (model n).Reachable s ↔ IsForm n s) ∧
    {s | (model n).Reachable s}.ncard = 2 ^ n + 4 ^ n + 6 ^ n ∧
    (Set.InjOn (model n).fingerprint {s | (model n).Reachable s} → ∀ cfg : Config State, cfg.workers ≤ 1 →
      cfg.maxStates = 0 → cfg.maxDepth = 0 → (∀ call t fp, cfg.visitor call t fp = .ok ()) →
        ∃ s, Search.check (model n) cfg = .ok s ∧ s.generated = 2 ^ n + 4 ^ n + 6 ^ n ∧ s.termination = .exhausted ∧
          (s.judgements (model n)).map (fun j => (j.1.name, j.2)) =
            [("abort agreement", .passed), ("commit agreement", .passed), ("consistent", .passed)]) := by
  have hR : ∀ s, s ∈ (forms n).toFinset ↔ (model n).Reachable s := by
    intro s
    rw [List.mem_toFinset, mem_forms, reachable_iff_isForm]
  have hcard : (forms n).toFinset.card = 2 ^ n + 4 ^ n + 6 ^ n := by
    rw [List.toFinset_card_of_nodup (nodup_forms n), length_forms]
  refine ⟨fun s => reachable_iff_isForm, ?_, fun hinj cfg h1 hstates hdepth hv => ?_⟩
  · have hset : {s | (model n).Reachable s} = ((forms n).toFinset : Set State) := by
      ext s
      exact (hR s).symm
    rw [hset, Set.ncard_coe_finset, hcard]
  · obtain ⟨s, hcheck, hcovers, hjudgements⟩ := Search.check_exhausts (model_total n) hinj hR (model_meets n)
      ⟨_, List.mem_cons_of_mem _ (List.mem_cons_of_mem _ List.mem_cons_self), rfl⟩ h1 hstates hdepth hv
    refine ⟨s, hcheck, hcovers.generated.trans hcard, hcovers.termination, ?_⟩
    rw [hjudgements]
    rfl

theorem injOn_of_forms {n : Nat} (h : ((forms n).map (model n).fingerprint).Nodup) :
    Set.InjOn (model n).fingerprint {s | (model n).Reachable s} := by
  intro s hs t ht
  exact List.inj_on_of_nodup_map h (mem_forms.2 (isForm_of_reachable hs)) (mem_forms.2 (isForm_of_reachable ht))

theorem state_census_two : Set.InjOn (model 2).fingerprint {s | (model 2).Reachable s} ∧
    ∃ s, Search.check (model 2) { order := .depthFirst } = .ok s ∧ s.generated = 56 ∧ s.termination = .exhausted := by
  have hinj : Set.InjOn (model 2).fingerprint {s | (model 2).Reachable s} := injOn_of_forms (by decide +kernel)
  obtain ⟨s, hcheck, hgenerated, htermination, -⟩ :=
    (state_census 2).2.2 hinj { order := .depthFirst } (Nat.le_refl 1) rfl rfl fun _ _ _ => rfl
  exact ⟨hinj, s, hcheck, hgenerated, htermination⟩

end StateSpace.TwoPhase
