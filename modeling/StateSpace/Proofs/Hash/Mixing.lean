import Mathlib.Logic.Function.Basic
import StateSpace.Path
import StateSpace.Proofs.Registry.History

/-!
# Mixing loses nothing

* `mul_bijective` : multiplication of words by a factor that has an inverse, as every odd one has, is a bijection;
* `foldHigh` : the high bits of a word folded onto the low ones; doing it twice undoes it (`foldHigh_involutive`);
* `mix_eq`, `mix_bijective` : mixing is made of these, and so is a bijection;
* `fingerprint_eq` : a fingerprint is the mixed hash, but 0 takes the place of the offset;
* `fingerprint_one_collision` : so fingerprints tell apart what hashes tell apart, but for one pair of words.
-/

namespace StateSpace.Hash

/-! ## Mixing -/

theorem mul_bijective {factor inverse : UInt64} (h : factor * inverse = 1) :
    Function.Bijective fun word : UInt64 => word * factor := by
  have h' : inverse * factor = 1 := by rw [UInt64.mul_comm, h]
  refine Function.bijective_iff_has_inverse.2 ⟨fun word => word * inverse, fun word => ?_, fun word => ?_⟩
  · show word * factor * inverse = word
    rw [UInt64.mul_assoc, h, UInt64.mul_one]
  · show word * inverse * factor = word
    rw [UInt64.mul_assoc, h', UInt64.mul_one]

def foldHigh (word : UInt64) : UInt64 := word ^^^ (word >>> 33)

/-- Two shifts by more than half a word leave nothing. -/
theorem shift_twice (word : UInt64) : word >>> 33 >>> 33 = 0 := by
  apply UInt64.eq_of_toBitVec_eq
  apply BitVec.eq_of_getLsbD_eq
  intro i hi
  have hbit : word.toBitVec.getLsbD (66 + i) = false := BitVec.getLsbD_of_ge _ _ (by omega)
  simpa using hbit

theorem foldHigh_involutive : Function.Involutive foldHigh := by
  intro word
  unfold foldHigh
  rw [UInt64.shiftRight_xor, shift_twice, UInt64.xor_zero, UInt64.xor_assoc, UInt64.xor_self, UInt64.xor_zero]

theorem mix_eq : mix = foldHigh ∘ (fun word => word * 0xc4ceb9fe1a85ec53) ∘ foldHigh ∘
    (fun word => word * 0xff51afd7ed558ccd) ∘ foldHigh := rfl

/-- **Mixing is a bijection on words.** -/
theorem mix_bijective : Function.Bijective mix := by
  have hfirst : (0xff51afd7ed558ccd : UInt64) * 0x4f74430c22a54005 = 1 := by decide
  have hsecond : (0xc4ceb9fe1a85ec53 : UInt64) * 0x9cb4b2f8129337db = 1 := by decide
  have hfold := foldHigh_involutive.bijective
  rw [mix_eq]
  exact hfold.comp ((mul_bijective hsecond).comp (hfold.comp ((mul_bijective hfirst).comp hfold)))

@[simp] theorem mix_zero : mix 0 = 0 := by decide

theorem mix_eq_zero {word : UInt64} : mix word = 0 ↔ word = 0 := by
  rw [← mix_bijective.injective.eq_iff (a := word), mix_zero]

/-! ## Fingerprints -/

theorem offset_ne : offset ≠ 0 := by decide

/-- A fingerprint is the mixed hash, but the hash 0 gives way to the offset. -/
theorem fingerprint_eq (hash : UInt64) : fingerprint hash = mix (if hash = 0 then offset else hash) := by
  unfold fingerprint noFingerprint
  by_cases h : hash = 0
  · rw [if_pos h, h, mix_zero, if_pos rfl, UInt64.zero_xor]
  · rw [if_neg h, if_neg fun hmix => h (mix_eq_zero.1 hmix)]

theorem fingerprint_ne (hash : UInt64) : fingerprint hash ≠ noFingerprint := by
  rw [fingerprint_eq, noFingerprint, Ne, mix_eq_zero]
  split
  · exact offset_ne
  · assumption

/-- Two hashes have one fingerprint if they are equal, or are the two words 0 and the offset. -/
theorem fingerprint_eq_iff {a b : UInt64} :
    fingerprint a = fingerprint b ↔ a = b ∨ a = 0 ∧ b = offset ∨ a = offset ∧ b = 0 := by
  rw [fingerprint_eq, fingerprint_eq, mix_bijective.injective.eq_iff]
  by_cases ha : a = 0
  · by_cases hb : b = 0
    · simp [ha, hb]
    · simp [ha, hb, eq_comm]
  · by_cases hb : b = 0
    · simp [ha, hb]
    · simp [ha, hb]

/-- **Fingerprints add one collision**, that of the hash 0 with the offset, and in exchange no state has the reserved
fingerprint. -/
theorem fingerprint_one_collision :
    Function.Bijective mix ∧ mix 0 = 0 ∧ (∀ hash, fingerprint hash ≠ noFingerprint) ∧
    (∀ (shards capacity : Nat) (requests : List (Registry.Request Fingerprint Fingerprint)) (hash : UInt64)
      (parent : Fingerprint), ∃ outcome,
        (((Registry.new shards capacity : Predecessors).served requests).insertIfAbsent (fingerprint hash) parent).1 =
          .ok outcome) ∧
    ∀ (σ α : Type) (m : Model σ α) (s t : σ), m.fingerprint s = m.fingerprint t ↔
      m.hash s = m.hash t ∨ m.hash s = 0 ∧ m.hash t = offset ∨ m.hash s = offset ∧ m.hash t = 0 := by
  refine ⟨mix_bijective, mix_zero, fingerprint_ne, ?_, ?_⟩
  · intro shards capacity requests hash parent
    exact (Registry.tracks_served shards capacity requests).sound.insertIfAbsent_ok (fingerprint_ne hash) parent
  · intro σ α m s t
    exact fingerprint_eq_iff

end StateSpace.Hash
