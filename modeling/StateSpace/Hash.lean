/-!
# Hashes and fingerprints

States are told apart by 64-bit fingerprints. A state's hash is folded from its parts, and a fingerprint is the
hash after a final mixing, moved away from 0, which stands for "no state".

* `ToWord`: types whose values are read as 64-bit words.
* `Hash.combine`, `Hash.combineAll`: folding one word, or a sequence and its length, into a hash.
* `Hash.mix`: the final mixing.
* `Fingerprint`, `Hash.fingerprint`.
-/

namespace StateSpace

/-- A type whose values are read as 64-bit words. -/
class ToWord (α : Type) where
  toWord : α → UInt64

export ToWord (toWord)

instance : ToWord UInt64 := ⟨id⟩
instance : ToWord UInt32 := ⟨UInt32.toUInt64⟩
instance : ToWord UInt8 := ⟨UInt8.toUInt64⟩
instance : ToWord Int64 := ⟨Int64.toUInt64⟩
instance : ToWord Int32 := ⟨fun n => n.toInt64.toUInt64⟩
instance : ToWord Bool := ⟨Bool.toUInt64⟩
instance : ToWord Nat := ⟨UInt64.ofNat⟩

def wordCount : Nat := 18446744073709551616

/-- The key under which a state is known. -/
abbrev Fingerprint := UInt64

namespace Hash

/-- The hash of nothing. -/
def offset : UInt64 := 14695981039346656037

/-- The odd multiplier of `combine`. -/
def prime : UInt64 := 1099511628211

def combineWord (seed word : UInt64) : UInt64 := (seed ^^^ word) * prime

def combine {α : Type} [ToWord α] (seed : UInt64) (x : α) : UInt64 := combineWord seed (toWord x)

/-- Folds a sequence into a hash, and then its length, which keeps neighbouring sequences apart. -/
def combineAll {α : Type} [ToWord α] (seed : UInt64) (xs : List α) : UInt64 :=
  combine (xs.foldl combine seed) xs.length

/-- Spreads the bits of a word over all of it. -/
def mix (h : UInt64) : UInt64 :=
  let h := (h ^^^ (h >>> 33)) * 0xff51afd7ed558ccd
  let h := (h ^^^ (h >>> 33)) * 0xc4ceb9fe1a85ec53
  h ^^^ (h >>> 33)

/-- No state has this fingerprint. -/
def noFingerprint : Fingerprint := 0

def fingerprint (hash : UInt64) : Fingerprint :=
  let fp := mix hash
  if fp = noFingerprint then mix (fp ^^^ offset) else fp

end Hash

end StateSpace
