import Mathlib.Data.List.Dedup
import Mathlib.Data.List.Induction
import StateSpace.Proofs.Registry.Bindings

/-!
# A registry answers from its history

Every operation holds the lock of its shard, so what several clients ask of a registry is one list of requests, in the order
in which they are served.

* `Request`, `Reply`, `serve`, `transcript` : requests, replies and the list of both;
* `written`, `bound`, `dueOutcome` : the insertions that a history asks for, the value that the first of a key gives it,
  and so the outcome that an insertion is due;
* `Answers` : the reply of a map in which the first writer of a key wins, given the history and nothing else;
* `Tracks r past` : the registry is sound and binds what the history bound; kept by each request (`Tracks.serve`);
* `first_writer_wins` : so every reply is that of such a map, whatever the numbers of shards and slots.
-/

namespace StateSpace.Registry

variable {κ ν : Type}

/-! ## Requests and replies -/

inductive Request (κ ν : Type) where
  | insert (key : κ) (value : ν)
  | lookup (key : κ)
  | contains (key : κ)
  | getD (key : κ) (fallback : ν)
  | size
  | isEmpty
  | bindings

inductive Reply (κ ν : Type) where
  | outcome (result : Except InsertError (Outcome ν))
  | found (value : Option ν)
  | value (value : ν)
  | flag (holds : Bool)
  | count (n : Nat)
  | listing (bindings : List (κ × ν))

/-- The binding that a request asks for, if it asks for one that is allowed. -/
def Request.binding? [DecidableEq κ] (reserved : κ) : Request κ ν → Option (κ × ν)
  | .insert key value => if key = reserved then none else some (key, value)
  | _ => none

section

variable {reserved : κ} [ToWord κ] [DecidableEq κ]

def serve (r : Registry κ ν reserved) : Request κ ν → Reply κ ν × Registry κ ν reserved
  | .insert key value => (.outcome (r.insertIfAbsent key value).1, (r.insertIfAbsent key value).2)
  | .lookup key => (.found (r.lookup key), r)
  | .contains key => (.flag (r.contains key), r)
  | .getD key fallback => (.value (r.getD key fallback), r)
  | .size => (.count r.size, r)
  | .isEmpty => (.flag r.isEmpty, r)
  | .bindings => (.listing r.bindings, r)

def served (r : Registry κ ν reserved) (requests : List (Request κ ν)) : Registry κ ν reserved :=
  requests.foldl (fun r q => (r.serve q).2) r

def transcript (r : Registry κ ν reserved) : List (Request κ ν) → List (Request κ ν × Reply κ ν)
  | [] => []
  | q :: rest => (q, (r.serve q).1) :: (r.serve q).2.transcript rest

theorem served_concat (r : Registry κ ν reserved) (past : List (Request κ ν)) (q : Request κ ν) :
    r.served (past ++ [q]) = ((r.served past).serve q).2 := by
  simp [served]

theorem transcript_append (r : Registry κ ν reserved) (past later : List (Request κ ν)) :
    r.transcript (past ++ later) = r.transcript past ++ (r.served past).transcript later := by
  induction past generalizing r with
  | nil => rfl
  | cons q past ih => simp [transcript, ih, served]

theorem map_fst_transcript (r : Registry κ ν reserved) (requests : List (Request κ ν)) :
    (r.transcript requests).map Prod.fst = requests := by
  induction requests generalizing r with
  | nil => rfl
  | cons q requests ih => simp [transcript, ih]

theorem eq_serve_of_transcript {r : Registry κ ν reserved} {requests : List (Request κ ν)}
    {past later : List (Request κ ν × Reply κ ν)} {q : Request κ ν} {a : Reply κ ν}
    (h : r.transcript requests = past ++ (q, a) :: later) : a = ((r.served (past.map Prod.fst)).serve q).1 := by
  have hrequests : requests = past.map Prod.fst ++ q :: later.map Prod.fst := by
    rw [← map_fst_transcript r requests, h]
    simp
  rw [hrequests, transcript_append] at h
  have hlength : (r.transcript (past.map Prod.fst)).length = past.length := by
    rw [← List.length_map (f := Prod.fst), map_fst_transcript, List.length_map]
  obtain ⟨-, hrest⟩ := List.append_inj h hlength
  rw [transcript, List.cons.injEq, Prod.mk.injEq] at hrest
  exact hrest.1.2.symm

end

/-! ## What a history says -/

section

variable [DecidableEq κ]

def written (reserved : κ) (past : List (Request κ ν)) : List (κ × ν) := past.filterMap (Request.binding? reserved)

/-- The value that the first insertion of a key in a history gives it. -/
def bound (reserved : κ) (past : List (Request κ ν)) (key : κ) : Option ν := (written reserved past).lookup key

/-- What an insertion should answer: a key that was written before keeps its value. -/
def dueOutcome (reserved : κ) (past : List (Request κ ν)) (key : κ) (value : ν) : Except InsertError (Outcome ν) :=
  if key = reserved then .error .reservedKey
  else match bound reserved past key with
    | none => .ok ⟨value, true⟩
    | some old => .ok ⟨old, false⟩

/-- The reply of a map in which the first writer of a key wins, after the requests of the past. -/
def Answers (reserved : κ) (past : List (Request κ ν)) : Request κ ν → Reply κ ν → Prop
  | .insert key value, a => a = .outcome (dueOutcome reserved past key value)
  | .lookup key, a => a = .found (bound reserved past key)
  | .contains key, a => a = .flag (bound reserved past key).isSome
  | .getD key fallback, a => a = .value ((bound reserved past key).getD fallback)
  | .size, a => a = .count ((written reserved past).map Prod.fst).dedup.length
  | .isEmpty, a => a = .flag (written reserved past).isEmpty
  | .bindings, a => ∃ bs, a = .listing bs ∧ (bs.map Prod.fst).Nodup ∧
      ∀ key value, (key, value) ∈ bs ↔ bound reserved past key = some value

/-- The reply tells the client that its insertion of the key was the one that bound it. -/
def wins (key : κ) : Request κ ν × Reply κ ν → Bool
  | (.insert k _, .outcome (.ok ⟨_, inserted⟩)) => k = key && inserted
  | _ => false

variable {reserved : κ} {past : List (Request κ ν)} {q : Request κ ν} {key : κ}

theorem written_concat : written reserved (past ++ [q]) = written reserved past ++ (q.binding? reserved).toList := by
  simp only [written, List.filterMap_append, List.filterMap_cons, List.filterMap_nil]
  cases q.binding? reserved <;> rfl

theorem bound_concat_of_none (h : q.binding? reserved = none) : bound reserved (past ++ [q]) = bound reserved past := by
  funext key
  rw [bound, written_concat, h, Option.toList_none, List.append_nil, bound]

theorem bound_concat_insert {value : ν} (hk : key ≠ reserved) (k : κ) :
    bound reserved (past ++ [.insert key value]) k =
      (bound reserved past k).or (if k = key then some value else none) := by
  rw [bound, written_concat, Request.binding?, if_neg hk, Option.toList_some, List.lookup_append, bound]
  by_cases hkey : k = key
  · rw [if_pos hkey, hkey, List.lookup_cons_self]
  · rw [if_neg hkey, List.lookup_cons, beq_eq_false_iff_ne.2 hkey]
    rfl

/-- Once bound, a key keeps its value in any longer history. -/
theorem bound_append {value : ν} (h : bound reserved past key = some value) (later : List (Request κ ν)) :
    bound reserved (past ++ later) key = some value := by
  rw [bound, written, List.filterMap_append, List.lookup_append]
  rw [bound, written] at h
  rw [h, Option.some_or]

/-- A key is bound by a history exactly if it was written in it. -/
theorem bound_eq_none : bound reserved past key = none ↔ key ∉ (written reserved past).map Prod.fst := by
  rw [bound, List.lookup_eq_none_iff]
  constructor
  · intro h hmem
    obtain ⟨b, hb, rfl⟩ := List.mem_map.1 hmem
    simpa using h b hb
  · intro h b hb
    have hne : key ≠ b.1 := by
      rintro rfl
      exact h (List.mem_map_of_mem hb)
    simpa using hne

theorem dueOutcome_eq_true {value value' : ν} (h : dueOutcome reserved past key value = .ok ⟨value', true⟩) :
    key ≠ reserved ∧ bound reserved past key = none ∧ value' = value := by
  unfold dueOutcome at h
  by_cases hk : key = reserved
  · rw [if_pos hk] at h
    cases h
  · rw [if_neg hk] at h
    cases hb : bound reserved past key with
    | none =>
      rw [hb] at h
      cases h
      exact ⟨hk, rfl, rfl⟩
    | some old =>
      rw [hb] at h
      cases h

end

/-! ## The registry keeps track -/

variable {reserved : κ} [ToWord κ] [DecidableEq κ]

/-- The registry is sound, and binds what the history has bound. -/
structure Tracks (r : Registry κ ν reserved) (past : List (Request κ ν)) : Prop where
  sound : r.Sound
  lookup : ∀ key, r.lookup key = bound reserved past key

variable {r : Registry κ ν reserved} {past : List (Request κ ν)}

theorem tracks_new (shards capacity : Nat) : Tracks (new shards capacity : Registry κ ν reserved) [] := by
  have hsound : (new shards capacity : Registry κ ν reserved).Sound := sound_new shards capacity
  refine ⟨hsound, fun key => ?_⟩
  rw [bound, written, List.filterMap_nil, List.lookup_nil, hsound.lookup_eq_none_iff, bindings_new, List.map_nil]
  exact List.not_mem_nil

/-- The keys of the bindings are those that were written, each once. -/
theorem Tracks.keys_perm (h : Tracks r past) :
    (r.bindings.map Prod.fst).Perm ((written reserved past).map Prod.fst).dedup := by
  rw [List.perm_ext_iff_of_nodup h.sound.nodup (List.nodup_dedup _)]
  intro key
  rw [List.mem_dedup, ← not_iff_not, ← bound_eq_none, ← h.lookup, h.sound.lookup_eq_none_iff]

theorem Tracks.size_eq (h : Tracks r past) : r.size = ((written reserved past).map Prod.fst).dedup.length := by
  rw [h.sound.size_eq, ← h.keys_perm.length_eq, List.length_map]

theorem Tracks.read (h : Tracks r past) {q : Request κ ν} (hq : q.binding? reserved = none) : Tracks r (past ++ [q]) :=
  ⟨h.sound, fun key => by rw [bound_concat_of_none hq, h.lookup]⟩

theorem Tracks.insert (h : Tracks r past) (key : κ) (value : ν) :
    (r.insertIfAbsent key value).1 = dueOutcome reserved past key value ∧
      Tracks (r.insertIfAbsent key value).2 (past ++ [.insert key value]) := by
  by_cases hk : key = reserved
  · subst hk
    rw [insertIfAbsent_reserved, dueOutcome, if_pos rfl]
    exact ⟨rfl, h.read (if_pos rfl)⟩
  · rw [dueOutcome, if_neg hk, ← h.lookup]
    cases hl : r.lookup key with
    | none =>
      obtain ⟨r', hins, hsound, hperm⟩ := h.sound.insertIfAbsent_new value hk hl
      rw [hins]
      refine ⟨rfl, hsound, fun k => ?_⟩
      rw [bound_concat_insert hk, ← h.lookup, h.sound.lookup_cons hsound hperm]
      by_cases hkey : k = key
      · rw [if_pos hkey, if_pos hkey, hkey, hl, Option.none_or]
      · rw [if_neg hkey, if_neg hkey, Option.or_none]
    | some old =>
      obtain ⟨r', hins, hsound, hperm⟩ := h.sound.insertIfAbsent_known value hl
      rw [hins]
      refine ⟨rfl, hsound, fun k => ?_⟩
      rw [bound_concat_insert hk, ← h.lookup, h.sound.lookup_congr hsound hperm]
      by_cases hkey : k = key
      · rw [hkey, hl, Option.some_or]
      · rw [if_neg hkey, Option.or_none]

theorem Tracks.isEmpty_eq (h : Tracks r past) : r.isEmpty = (written reserved past).isEmpty := by
  rw [isEmpty, h.size_eq, Bool.eq_iff_iff, beq_iff_eq, List.length_eq_zero_iff, List.dedup_eq_nil, List.map_eq_nil_iff,
    List.isEmpty_iff]

/-- **One request**: the reply is the one that the history asks for, and the registry keeps track. -/
theorem Tracks.serve (h : Tracks r past) (q : Request κ ν) :
    Answers reserved past q (r.serve q).1 ∧ Tracks (r.serve q).2 (past ++ [q]) := by
  cases q with
  | insert key value =>
    obtain ⟨houtcome, htracks⟩ := h.insert key value
    exact ⟨congrArg Reply.outcome houtcome, htracks⟩
  | lookup key => exact ⟨congrArg Reply.found (h.lookup key), h.read rfl⟩
  | contains key => exact ⟨congrArg (fun o : Option ν => Reply.flag o.isSome) (h.lookup key), h.read rfl⟩
  | getD key fallback => exact ⟨congrArg (fun o : Option ν => Reply.value (o.getD fallback)) (h.lookup key), h.read rfl⟩
  | size => exact ⟨congrArg Reply.count h.size_eq, h.read rfl⟩
  | isEmpty => exact ⟨congrArg Reply.flag h.isEmpty_eq, h.read rfl⟩
  | bindings =>
    refine ⟨⟨r.bindings, rfl, h.sound.nodup, fun key value => ?_⟩, h.read rfl⟩
    rw [← h.lookup, h.sound.lookup_eq_some_iff]

/-- **All requests**: the registry keeps track of any history. -/
theorem tracks_served (shards capacity : Nat) (requests : List (Request κ ν)) :
    Tracks ((new shards capacity : Registry κ ν reserved).served requests) requests := by
  induction requests using List.reverseRecOn with
  | nil => exact tracks_new shards capacity
  | append_singleton past q ih =>
    rw [served_concat]
    exact (ih.serve q).2

/-! ## The first writer of a key -/

/-- An insertion wins exactly if its key is allowed and has not been written before. -/
theorem Tracks.wins_iff (h : Tracks r past) (q : Request κ ν) (key : κ) :
    wins key (q, (r.serve q).1) = true ↔
      bound reserved past key = none ∧ bound reserved (past ++ [q]) key ≠ none := by
  cases q with
  | insert k value =>
    have hreply : (r.serve (.insert k value)).1 = _ := (h.serve (.insert k value)).1
    rw [hreply, dueOutcome]
    by_cases hk : k = reserved
    · rw [if_pos hk, bound_concat_of_none (by simp [Request.binding?, hk])]
      simp [wins]
    · rw [if_neg hk, bound_concat_insert hk]
      by_cases hkey : k = key
      · subst hkey
        cases bound reserved past k <;> simp [wins]
      · rw [if_neg (Ne.symm hkey), Option.or_none]
        cases bound reserved past k <;> simp [wins, hkey]
  | _ =>
    rw [bound_concat_of_none rfl]
    simp [wins]

/-- The insertions that won a key are as many as the values it has got: one, or none if it was never written. -/
theorem countP_wins (shards capacity : Nat) (requests : List (Request κ ν)) (key : κ) :
    ((new shards capacity : Registry κ ν reserved).transcript requests).countP (wins key) =
      if key ∈ (written reserved requests).map Prod.fst then 1 else 0 := by
  have hcond : ∀ past : List (Request κ ν), key ∈ (written reserved past).map Prod.fst ↔ bound reserved past key ≠ none := by
    intro past
    rw [Ne, bound_eq_none, not_not]
  simp only [hcond]
  induction requests using List.reverseRecOn with
  | nil => rfl
  | append_singleton past q ih =>
    have htracks : Tracks ((new shards capacity : Registry κ ν reserved).served past) past :=
      tracks_served shards capacity past
    rw [transcript_append, List.countP_append, ih, transcript, transcript, List.countP_cons, List.countP_nil]
    simp only [htracks.wins_iff]
    cases hb : bound reserved past key with
    | none => simp
    | some value => simp [bound_append hb]

/-- A registry is, over a list of requests, a map in which the first writer of a key wins. -/
structure FirstWriterWins (r : Registry κ ν reserved) (requests : List (Request κ ν)) : Prop where
  /-- Each reply is the one that the requests before it ask for. -/
  replies : ∀ past q a later, r.transcript requests = past ++ (q, a) :: later →
    Answers reserved (past.map Prod.fst) q a
  /-- In the end a key has the value of its first insertion. -/
  binds : ∀ key, (r.served requests).lookup key = bound reserved requests key
  /-- The reserved key has no value. -/
  absent : (r.served requests).lookup reserved = none
  /-- It is refused, and the registry is left as it was. -/
  refused : ∀ value, (r.served requests).serve (.insert reserved value) =
    (.outcome (.error .reservedKey), r.served requests)
  /-- Of the insertions of a key exactly one wins, if there are any. -/
  winner : ∀ key, (r.transcript requests).countP (wins key) =
    if key ∈ (written reserved requests).map Prod.fst then 1 else 0
  /-- Its value is the one that it asked for, and is found from then on, whatever is asked next. -/
  lasting : ∀ past key value value' later,
    r.transcript requests = past ++ (.insert key value, .outcome (.ok ⟨value', true⟩)) :: later →
      value' = value ∧ ∀ next, (r.served (past.map Prod.fst ++ .insert key value :: next)).lookup key = some value

/-- **First writer wins**: for any kind of keys, any reserved key and any numbers of shards and slots, a new registry serves
any list of requests as the map in which the first writer of a key wins. -/
theorem first_writer_wins (shards capacity : Nat) (requests : List (Request κ ν)) :
    FirstWriterWins (new shards capacity : Registry κ ν reserved) requests where
  replies past q a later h := by
    rw [eq_serve_of_transcript h]
    exact ((tracks_served shards capacity _).serve q).1
  binds := (tracks_served shards capacity requests).lookup
  absent := lookup_reserved _
  refused value := by
    simp only [Registry.serve, insertIfAbsent_reserved]
  winner := countP_wins shards capacity requests
  lasting past key value value' later h := by
    have hreply : _ = Reply.outcome (dueOutcome reserved (past.map Prod.fst) key value) :=
      ((tracks_served shards capacity (past.map Prod.fst)).serve (.insert key value)).1
    rw [← eq_serve_of_transcript h, Reply.outcome.injEq] at hreply
    obtain ⟨hk, hnone, hvalue⟩ := dueOutcome_eq_true hreply.symm
    refine ⟨hvalue, fun next => ?_⟩
    rw [(tracks_served shards capacity _).lookup, List.append_cons]
    apply bound_append
    rw [bound_concat_insert hk, hnone, if_pos rfl, Option.none_or]

/-- Only the first insertion of a key wins, also where all keys share a table that has to grow. -/
example : ((new 1 0 : Registry UInt8 Nat 255).transcript [.insert 7 1, .insert 8 3, .insert 7 2]).map (wins 7) =
    [true, false, false] := by decide +kernel

end StateSpace.Registry
