import StateSpace.Actor.System
import StateSpace.Proofs.Hash.Mixing
import StateSpace.Systems.TwoPhaseCommit

/-!
# One change shows in the hash

* `DifferAt apart i xs ys` : sequences of one length that differ at position `i` only, and are apart there;
* `digest` : words folded into a hash, which loses neither the seed (`digest_injective`) nor a single word that is
  changed (`digest_ne`);
* `combineAll_eq`, `Envelope.hash_eq`, `SystemState.hash_eq`, `TwoPhase.State.hash_eq` : the hashes are digests, of the
  words of the parts in order;
* `ToldApart` : hashes that differ, with fingerprints that differ but for one pair of words;
* `Envelope.OneChange`, `SystemState.OneChange`, `TwoPhase.State.OneChange` : values that differ in one part only, which
  `one_change_shows` tells apart.
-/

namespace StateSpace

/-! ## Sequences that differ once -/

/-- Two sequences of one length that agree but at position `i`, where they are apart. -/
structure DifferAt {α : Type} (apart : α → α → Prop) (i : Nat) (xs ys : List α) : Prop where
  length_eq : xs.length = ys.length
  elsewhere : ∀ j, j ≠ i → xs[j]? = ys[j]?
  there : ∃ x y, xs[i]? = some x ∧ ys[i]? = some y ∧ apart x y

theorem DifferAt.imp {α : Type} {apart apart' : α → α → Prop} {i : Nat} {xs ys : List α} (h : DifferAt apart i xs ys)
    (himp : ∀ x y, apart x y → apart' x y) : DifferAt apart' i xs ys := by
  obtain ⟨x, y, hx, hy, hxy⟩ := h.there
  exact ⟨h.length_eq, h.elsewhere, x, y, hx, hy, himp x y hxy⟩

theorem differAt_set {α : Type} {apart : α → α → Prop} {i : Nat} {xs : List α} {x y : α} (hx : xs[i]? = some x)
    (hxy : apart x y) : DifferAt apart i xs (xs.set i y) := by
  obtain ⟨hi, -⟩ := List.getElem?_eq_some_iff.1 hx
  refine ⟨List.length_set.symm, fun j hj => ?_, x, y, hx, List.getElem?_set_self hi, hxy⟩
  rw [List.getElem?_set_ne hj.symm]

theorem eq_take_append_drop {α : Type} {xs : List α} {i : Nat} {x : α} (h : xs[i]? = some x) :
    xs = xs.take i ++ x :: xs.drop (i + 1) := by
  obtain ⟨hi, rfl⟩ := List.getElem?_eq_some_iff.1 h
  rw [← List.drop_eq_getElem_cons hi, List.take_append_drop]

theorem DifferAt.split {α : Type} {apart : α → α → Prop} {i : Nat} {xs ys : List α} (h : DifferAt apart i xs ys) :
    ∃ front x y back, xs = front ++ x :: back ∧ ys = front ++ y :: back ∧ apart x y := by
  obtain ⟨x, y, hx, hy, hxy⟩ := h.there
  have hfront : ys.take i = xs.take i := by
    apply List.ext_getElem?
    intro j
    rw [List.getElem?_take, List.getElem?_take]
    by_cases hj : j < i
    · rw [if_pos hj, if_pos hj, h.elsewhere j (by omega)]
    · rw [if_neg hj, if_neg hj]
  have hback : ys.drop (i + 1) = xs.drop (i + 1) := by
    apply List.ext_getElem?
    intro j
    rw [List.getElem?_drop, List.getElem?_drop, h.elsewhere _ (by omega)]
  refine ⟨xs.take i, x, y, xs.drop (i + 1), eq_take_append_drop hx, ?_, hxy⟩
  rw [← hfront, ← hback]
  exact eq_take_append_drop hy

namespace Hash

/-! ## Digests of words -/

def digest (seed : UInt64) (words : List UInt64) : UInt64 := words.foldl combineWord seed

theorem digest_append (seed : UInt64) (front back : List UInt64) :
    digest seed (front ++ back) = digest (digest seed front) back := List.foldl_append

/-- One step loses nothing of what it multiplies, as the prime is odd. -/
theorem combineWord_inj {seed seed' word word' : UInt64} :
    combineWord seed word = combineWord seed' word' ↔ seed ^^^ word = seed' ^^^ word' := by
  have hprime : prime * 0xce965057aff6957b = 1 := by decide
  exact (mul_bijective hprime).injective.eq_iff

theorem combineWord_seed_injective (word : UInt64) : Function.Injective fun seed => combineWord seed word := by
  intro seed seed' h
  exact (UInt64.xor_left_inj word).1 (combineWord_inj.1 h)

theorem combineWord_injective (seed : UInt64) : Function.Injective (combineWord seed) := by
  intro word word' h
  exact (UInt64.xor_right_inj seed).1 (combineWord_inj.1 h)

theorem digest_injective (words : List UInt64) : Function.Injective fun seed => digest seed words := by
  induction words with
  | nil => exact Function.injective_id
  | cons word words ih => exact ih.comp (combineWord_seed_injective word)

/-- A digest shows the change of one word: it shows in the step that takes the word, and the later steps keep it. -/
theorem digest_ne (seed : UInt64) (front back : List UInt64) {word word' : UInt64} (h : word ≠ word') :
    digest seed (front ++ word :: back) ≠ digest seed (front ++ word' :: back) := by
  rw [digest_append, digest_append]
  intro heq
  exact h (combineWord_injective _ (digest_injective back heq))

theorem digest_map_ne {α : Type} {word : α → UInt64} {i : Nat} {xs ys : List α}
    (h : DifferAt (fun x y => word x ≠ word y) i xs ys) (seed : UInt64) (front back : List UInt64) :
    digest seed (front ++ (xs.map word ++ back)) ≠ digest seed (front ++ (ys.map word ++ back)) := by
  obtain ⟨before, x, y, behind, rfl, rfl, hxy⟩ := h.split
  have hne := digest_ne seed (front ++ before.map word) (behind.map word ++ back) hxy
  simpa only [List.map_append, List.map_cons, List.append_assoc, List.cons_append] using hne

/-! ## Sequences -/

/-- The words of a sequence, and its length. -/
def wordsOf {α : Type} [ToWord α] (xs : List α) : List UInt64 := xs.map toWord ++ [toWord xs.length]

theorem foldl_combine {α : Type} [ToWord α] (seed : UInt64) (xs : List α) :
    xs.foldl combine seed = digest seed (xs.map toWord) := by
  rw [digest, List.foldl_map]
  rfl

theorem combineAll_eq {α : Type} [ToWord α] (seed : UInt64) (xs : List α) :
    combineAll seed xs = digest seed (wordsOf xs) := by
  rw [combineAll, foldl_combine, wordsOf, digest_append]
  rfl

theorem digest_wordsOf_ne {α : Type} [ToWord α] {i : Nat} {xs ys : List α}
    (h : DifferAt (fun x y => toWord x ≠ toWord y) i xs ys) (seed : UInt64) (front back : List UInt64) :
    digest seed (front ++ (wordsOf xs ++ back)) ≠ digest seed (front ++ (wordsOf ys ++ back)) := by
  have hne := digest_map_ne h seed front (toWord xs.length :: back)
  unfold wordsOf
  rw [← h.length_eq, List.append_assoc, List.append_assoc]
  exact hne

theorem combineAll_ne {α : Type} [ToWord α] {i : Nat} {xs ys : List α}
    (h : DifferAt (fun x y => toWord x ≠ toWord y) i xs ys) (seed : UInt64) :
    combineAll seed xs ≠ combineAll seed ys := by
  have hne := digest_wordsOf_ne h seed [] []
  rwa [List.append_nil, List.append_nil, List.nil_append, List.nil_append, ← combineAll_eq, ← combineAll_eq] at hne

/-! ## Integers -/

theorem toWord_inj {m n : Nat} (hm : m < wordCount) (hn : n < wordCount) : toWord m = toWord n ↔ m = n := by
  constructor
  · intro h
    have htoNat := congrArg UInt64.toNat h
    rwa [show (toWord m).toNat = m from UInt64.toNat_ofNat_of_lt' hm,
      show (toWord n).toNat = n from UInt64.toNat_ofNat_of_lt' hn] at htoNat
  · intro h
    rw [h]

theorem toWord_int64_injective : Function.Injective (toWord : Int64 → UInt64) := by
  intro a b h
  exact congrArg Int64.ofUInt64 h

theorem toWord_int32_injective : Function.Injective (toWord : Int32 → UInt64) := by
  intro a b h
  have hwide : a.toInt64 = b.toInt64 := toWord_int64_injective h
  apply Int32.toInt_inj.1
  rw [← Int32.toInt_toInt64, ← Int32.toInt_toInt64, hwide]

theorem toWord_bool_injective : Function.Injective (toWord : Bool → UInt64) := by
  intro a b
  cases a <;> cases b <;> decide

/-! ## Hashes told apart -/

/-- Two hashes that differ. So do their fingerprints, unless they are the two words 0 and the offset. -/
structure ToldApart (a b : UInt64) : Prop where
  hash_ne : a ≠ b
  fingerprint_eq_iff : fingerprint a = fingerprint b ↔ a = 0 ∧ b = offset ∨ a = offset ∧ b = 0

theorem toldApart_of_ne {a b : UInt64} (h : a ≠ b) : ToldApart a b := by
  refine ⟨h, ?_⟩
  rw [fingerprint_eq_iff, or_iff_right h]

end Hash

/-! ## Envelopes and systems of actors -/

open Hash

/-- The sender and the receiver are numbered by words. -/
def Envelope.Addressed {μ : Type} (e : Envelope μ) : Prop := e.src < wordCount ∧ e.dst < wordCount

instance {μ : Type} (e : Envelope μ) : Decidable e.Addressed := inferInstanceAs (Decidable (_ ∧ _))

section Actors

variable {τ μ : Type} [ToWord τ] [ToWord μ]

/-- Two envelopes that differ in exactly one field; messages that differ have different words. -/
inductive Envelope.OneChange (a b : Envelope μ) : Prop
  | src (h : a.src ≠ b.src) (hdst : a.dst = b.dst) (hmsg : a.msg = b.msg)
  | dst (hsrc : a.src = b.src) (h : a.dst ≠ b.dst) (hmsg : a.msg = b.msg)
  | msg (hsrc : a.src = b.src) (hdst : a.dst = b.dst) (h : toWord a.msg ≠ toWord b.msg)

theorem Envelope.hash_eq (e : Envelope μ) : e.hash = digest offset [toWord e.src, toWord e.dst, toWord e.msg] := rfl

theorem Envelope.OneChange.hash_ne {a b : Envelope μ} (ha : a.Addressed) (hb : b.Addressed) (h : a.OneChange b) :
    a.hash ≠ b.hash := by
  rw [Envelope.hash_eq, Envelope.hash_eq]
  cases h with
  | src h hdst hmsg =>
    rw [hdst, hmsg]
    exact digest_ne offset [] _ fun heq => h ((toWord_inj ha.1 hb.1).1 heq)
  | dst hsrc h hmsg =>
    rw [hsrc, hmsg]
    exact digest_ne offset [_] _ fun heq => h ((toWord_inj ha.2 hb.2).1 heq)
  | msg hsrc hdst h =>
    rw [hsrc, hdst]
    exact digest_ne offset [_, _] _ h

/-- Two states of a system that differ in exactly one actor, or in exactly one field of one envelope. -/
inductive SystemState.OneChange (s t : SystemState τ μ) : Prop
  | actor (i : Nat) (h : DifferAt (fun x y => toWord x ≠ toWord y) i s.actors t.actors) (hnetwork : s.network = t.network)
  | envelope (i : Nat) (hactors : s.actors = t.actors)
      (h : DifferAt (fun a b => a.Addressed ∧ b.Addressed ∧ a.OneChange b) i s.network t.network)

theorem SystemState.hash_eq (s : SystemState τ μ) : s.hash = digest offset (wordsOf s.actors ++ wordsOf s.network) := by
  rw [SystemState.hash, combineAll_eq, combineAll_eq, digest_append]

theorem SystemState.OneChange.hash_ne {s t : SystemState τ μ} (h : s.OneChange t) : s.hash ≠ t.hash := by
  rw [SystemState.hash_eq, SystemState.hash_eq]
  cases h with
  | actor i h hnetwork =>
    rw [hnetwork]
    exact digest_wordsOf_ne h offset [] (wordsOf t.network)
  | envelope i hactors h =>
    rw [hactors]
    -- the word of an envelope is its hash
    have hwords : DifferAt (fun a b => toWord a ≠ toWord b) i s.network t.network :=
      h.imp fun a b hab => hab.2.2.hash_ne hab.1 hab.2.1
    have hne := digest_wordsOf_ne hwords offset (wordsOf t.actors) []
    rwa [List.append_nil, List.append_nil] at hne

end Actors

/-! ## Two-phase commit -/

namespace TwoPhase

/-- Two states that differ in exactly one of the resource managers' states, the transaction manager's state and what it
knows about one resource manager. -/
inductive State.OneChange (s t : State) : Prop
  | rm (i : Nat) (h : DifferAt (· ≠ ·) i s.rms t.rms) (htm : s.tm = t.tm) (hprepared : s.tmPrepared = t.tmPrepared)
      (hmsgs : s.msgs = t.msgs)
  | tm (hrms : s.rms = t.rms) (h : s.tm ≠ t.tm) (hprepared : s.tmPrepared = t.tmPrepared) (hmsgs : s.msgs = t.msgs)
  | prepared (i : Nat) (hrms : s.rms = t.rms) (htm : s.tm = t.tm) (h : DifferAt (· ≠ ·) i s.tmPrepared t.tmPrepared)
      (hmsgs : s.msgs = t.msgs)

theorem RmState.code_ne {r r' : RmState} (h : r ≠ r') : toWord r.code ≠ toWord r'.code := by
  revert h
  cases r <;> cases r' <;> decide

theorem TmState.code_ne {r r' : TmState} (h : r ≠ r') : toWord r.code ≠ toWord r'.code := by
  revert h
  cases r <;> cases r' <;> decide

theorem State.hash_eq (s : State) : s.hash = digest offset (s.rms.map (toWord ·.code) ++ toWord s.tm.code ::
    (s.tmPrepared.map toWord ++ wordsOf s.msgs)) := by
  have hrms : s.rms.foldl (fun seed r => combine seed r.code) offset = digest offset (s.rms.map (toWord ·.code)) := by
    rw [digest, List.foldl_map]
    rfl
  unfold State.hash
  rw [hrms, combineAll_eq, foldl_combine, ← digest_append, digest_append _ (s.rms.map _)]
  rfl

theorem State.OneChange.hash_ne {s t : State} (h : s.OneChange t) : s.hash ≠ t.hash := by
  rw [State.hash_eq, State.hash_eq]
  cases h with
  | rm i h htm hprepared hmsgs =>
    rw [htm, hprepared, hmsgs]
    exact digest_map_ne (h.imp fun _ _ => RmState.code_ne) offset [] _
  | tm hrms h hprepared hmsgs =>
    rw [hrms, hprepared, hmsgs]
    exact digest_ne offset _ _ (TmState.code_ne h)
  | prepared i hrms htm h hmsgs =>
    rw [hrms, htm, hmsgs, List.append_cons _ _ (s.tmPrepared.map _ ++ _), List.append_cons _ _ (t.tmPrepared.map _ ++ _)]
    exact digest_map_ne (h.imp fun _ _ => toWord_bool_injective.ne) offset _ _

end TwoPhase

/-! ## One change -/

namespace Hash

/-- **One change shows in the hash**: of a sequence, an envelope, a state of actors, or a state of two-phase commit
apart from its messages, if exactly one element, field or manager differs. -/
theorem one_change_shows :
    (Function.Injective (toWord : UInt64 → UInt64) ∧ Function.Injective (toWord : UInt32 → UInt64) ∧
      Function.Injective (toWord : UInt8 → UInt64) ∧ Function.Injective (toWord : Int64 → UInt64) ∧
      Function.Injective (toWord : Int32 → UInt64) ∧ Function.Injective (toWord : Bool → UInt64) ∧
      ∀ m n : Nat, m < wordCount → n < wordCount → toWord m = toWord n → m = n) ∧
    (∀ (α : Type) [ToWord α] (seed : UInt64) (i : Nat) (xs ys : List α),
      DifferAt (fun x y => toWord x ≠ toWord y) i xs ys → combineAll seed xs ≠ combineAll seed ys) ∧
    (∀ (α : Type) [ToWord α] (xs : List α), Function.Injective fun seed => combineAll seed xs) ∧
    (∀ (α : Type) [ToWord α] (x : α), Function.Injective fun seed => combine seed x) ∧
    (∀ (μ : Type) [ToWord μ] (a b : Envelope μ), a.Addressed → b.Addressed → a.OneChange b →
      ToldApart a.hash b.hash) ∧
    (∀ (τ μ : Type) [Ord μ] [DecidableEq μ] [ToWord τ] [ToWord μ] (sys : ActorSystem τ μ) (s t : SystemState τ μ),
      s.OneChange t → ToldApart (sys.model.hash s) (sys.model.hash t)) ∧
    ∀ (n : Nat) (s t : TwoPhase.State), s.OneChange t →
      ToldApart ((TwoPhase.model n).hash s) ((TwoPhase.model n).hash t) := by
  refine ⟨⟨Function.injective_id, fun _ _ => UInt32.toUInt64_inj.1, fun _ _ => UInt8.toUInt64_inj.1,
    toWord_int64_injective, toWord_int32_injective, toWord_bool_injective, ?_⟩, ?_, ?_, ?_, ?_, ?_, ?_⟩
  · intro m n hm hn h
    exact (toWord_inj hm hn).1 h
  · intro α _ seed i xs ys h
    exact combineAll_ne h seed
  · intro α _ xs seed seed' h
    simp only [combineAll_eq] at h
    exact digest_injective (wordsOf xs) h
  · intro α _ x
    exact combineWord_seed_injective (toWord x)
  · intro μ _ a b ha hb h
    exact toldApart_of_ne (h.hash_ne ha hb)
  · intro τ μ _ _ _ _ sys s t h
    exact toldApart_of_ne h.hash_ne
  · intro n s t h
    exact toldApart_of_ne h.hash_ne

/-- A sequence with one element changed, a message sent to another receiver, a system with such a message in flight, and
a resource manager that chooses to abort. -/
theorem one_change_shows_aborts :
    combineAll 1 [4, 5, (6 : UInt64)] ≠ combineAll 1 [4, 7, (6 : UInt64)] ∧
    ToldApart (Envelope.hash ⟨0, 1, (true : Bool)⟩) (Envelope.hash ⟨0, 2, true⟩) ∧
    (∀ sys : ActorSystem Int32 Bool,
      ToldApart (sys.model.hash ⟨[-1, 3], [⟨0, 1, true⟩]⟩) (sys.model.hash ⟨[-1, 3], [⟨0, 2, true⟩]⟩)) ∧
    TwoPhase.next (TwoPhase.initial 2) ⟨.rmChooseToAbort, 1⟩ = (TwoPhase.initial 2).setRm 1 .aborted ∧
    ToldApart ((TwoPhase.model 2).hash (TwoPhase.initial 2))
      ((TwoPhase.model 2).hash ((TwoPhase.initial 2).setRm 1 .aborted)) := by
  obtain ⟨-, hsequences, -, -, henvelopes, hsystems, hcommit⟩ := one_change_shows
  have hfirst : Envelope.Addressed ⟨0, 1, true⟩ := by decide
  have hsecond : Envelope.Addressed ⟨0, 2, true⟩ := by decide
  have hchange : Envelope.OneChange (⟨0, 1, true⟩ : Envelope Bool) ⟨0, 2, true⟩ := .dst rfl (by decide) rfl
  refine ⟨?_, henvelopes _ _ _ hfirst hsecond hchange, fun sys => ?_, rfl, ?_⟩
  · have hdiffer : DifferAt (fun x y => toWord x ≠ toWord y) 1 [4, 5, (6 : UInt64)] [4, 7, 6] :=
      differAt_set (y := 7) rfl (by decide)
    exact hsequences _ 1 1 _ _ hdiffer
  · exact hsystems _ _ sys _ _ (.envelope 0 rfl (differAt_set rfl ⟨hfirst, hsecond, hchange⟩))
  · exact hcommit 2 _ _ (.rm 1 (differAt_set (x := .working) rfl (by decide)) rfl rfl rfl)

end Hash

end StateSpace
