import StateSpace.Console.Session
import StateSpace.Proofs.Wire.Grammar

/-!
# What a screen shows

* `Session.listing fps` : fingerprints in a row, behind their number; `Session.menu m edges` : the edges, with their numbers;
* `Session.view_eq` : a screen is the listing of its path's fingerprints, the last state, and the menu of its edges;
* `Session.fingerprints_eq_of_view_eq` : two screens of one text are of paths with the same fingerprints;
* `Session.apply_shown` : the number shown in front of an edge is the command that follows it.
-/

namespace StateSpace

variable {σ α : Type}

/-! ## Decimal texts -/

namespace Console

theorem digitsValue_eq {ds : Bytes} (h : ∀ b ∈ ds, isDigit b = true) : digitsValue ds = Wire.numeral 0 ds := by
  unfold digitsValue Wire.numeral
  refine List.foldl_ext _ _ _ fun n b hb => ?_
  obtain ⟨hlow, -⟩ := Wire.isDigit_iff.1 (h b hb)
  have hle : '0'.toUInt8 ≤ b := UInt8.le_iff_toNat_le.2 hlow
  rw [UInt8.toNat_sub_of_le _ _ hle]
  rfl

theorem ofString_toString (n : Nat) : Bytes.ofString (toString n) = Bytes.ofChars (Nat.toDigits 10 n) := by
  show Bytes.ofChars n.repr.toList = _
  rw [Nat.toList_repr]

theorem splitSign_of_digit {d : UInt8} (hd : isDigit d = true) (ds : Bytes) :
    splitSign ((d :: ds).dropWhile isBlank) = (false, d :: ds) := by
  obtain ⟨hlow, -⟩ := Wire.isDigit_iff.1 hd
  have hbelow : ∀ b : UInt8, b.toNat < 48 → (d == b) = false := by
    intro b hb
    rw [beq_eq_false_iff_ne]
    rintro rfl
    omega
  have hblank : isBlank d = false := by
    have h13 : ¬ d ≤ 13 := by
      rw [UInt8.le_iff_toNat_le]
      show ¬ d.toNat ≤ 13
      omega
    rw [isBlank, hbelow 32 (by decide), Bool.false_or, decide_eq_false h13, Bool.and_false]
  rw [List.dropWhile_cons_of_neg (by rw [hblank]; exact Bool.false_ne_true), splitSign, hbelow '-'.toUInt8 (by decide),
    hbelow '+'.toUInt8 (by decide)]
  rfl

/-- A number below `2 ^ 64` is read back from its decimal text. -/
theorem readWord_toString {n : Nat} (hn : n < wordCount) : readWord (toString n) = .ok (UInt64.ofNat n) := by
  obtain ⟨hne, hdigits, hvalue⟩ := Wire.decimal_digits n
  rw [readWord, ofString_toString]
  obtain ⟨d, ds, hds⟩ := List.exists_cons_of_ne_nil hne
  rw [hds] at hdigits hvalue ⊢
  have htake : (d :: ds ++ []).takeWhile isDigit = d :: ds ++ [].takeWhile isDigit := List.takeWhile_append_of_pos hdigits
  rw [List.takeWhile_nil, List.append_nil] at htake
  rw [splitSign_of_digit (hdigits d List.mem_cons_self)]
  dsimp only
  rw [htake, digitsValue_eq hdigits, hvalue, List.isEmpty_cons, if_neg Bool.false_ne_true, if_pos hn,
    if_neg Bool.false_ne_true]

/-- Where a decimal text ends is seen from the first character behind it. -/
theorem toDigits_append_inj {a b : Nat} {x y : List Char} (hx : ∀ c ∈ x.head?, c.isDigit = false)
    (hy : ∀ c ∈ y.head?, c.isDigit = false) (h : Nat.toDigits 10 a ++ x = Nat.toDigits 10 b ++ y) : a = b ∧ x = y := by
  have hcut : ∀ (n : Nat) (z : List Char), (∀ c ∈ z.head?, c.isDigit = false) →
      (Nat.toDigits 10 n ++ z).takeWhile Char.isDigit = Nat.toDigits 10 n := by
    intro n z hz
    rw [List.takeWhile_append_of_pos fun c hc => Nat.isDigit_of_mem_toDigits (by decide) (by decide) hc]
    cases z with
    | nil => exact List.append_nil _
    | cons c z =>
      rw [List.takeWhile_cons_of_neg (by rw [hz c rfl]; exact Bool.false_ne_true)]
      exact List.append_nil _
  have hdigits : Nat.toDigits 10 a = Nat.toDigits 10 b := by
    rw [← hcut a x hx, h, hcut b y hy]
  have hab : a = b := by
    rw [← @Nat.ofDigitChars_toDigits 10 a (by decide) (by decide), hdigits,
      Nat.ofDigitChars_toDigits (by decide) (by decide)]
  subst hab
  exact ⟨rfl, List.append_cancel_left h⟩

namespace Session

/-! ## Screens -/

def listing (fps : List Fingerprint) : String :=
  s!"\nPath ({fps.length} states):" ++ String.join (fps.map fun fp => s!" {fp}")

def menu (m : Model σ α) (edges : List (Explorer.Edge σ α)) : String :=
  if edges.isEmpty then "  (no successors)\n"
  else String.join (edges.zipIdx.map fun (e, i) => s!"  [{i}] " ++ m.formatAction e.action ++ s!" -> {e.fp}\n")

/-- A screen lists the fingerprints of its path and shows the last state and its edges. -/
theorem view_eq (m : Model σ α) (path : Path σ α) (edges : List (Explorer.Edge σ α)) :
    view m path edges =
      listing (path.fingerprints m) ++ ("\nState: " ++ m.formatState path.last ++ "\n" ++ menu m edges) := by
  have hsize : path.size = (path.fingerprints m).length := by
    simp [Path.size, Path.fingerprints, Path.states]
  have hmenu : (if edges.isEmpty then "  (no successors)\n" else "") ++ String.join (edges.zipIdx.map fun (e, i) =>
      s!"  [{i}] " ++ m.formatAction e.action ++ s!" -> {e.fp}\n") = menu m edges := by
    unfold menu
    cases edges with
    | nil => rfl
    | cons e edges => exact String.empty_append
  rw [view, hsize, ← hmenu]
  simp only [listing, String.append_assoc]

def row (fps : List Fingerprint) : List Char := fps.flatMap fun fp => ' ' :: Nat.toDigits 10 fp.toNat

theorem toList_listing (fps : List Fingerprint) : (listing fps).toList =
    "\nPath (".toList ++ (Nat.toDigits 10 fps.length ++ (" states):".toList ++ row fps)) := by
  have hrow : (String.join (fps.map fun fp => s!" {fp}")).toList = row fps := by
    rw [String.toList_join, List.flatMap_map]
    refine List.flatMap_congr fun fp _ => ?_
    show (" " ++ fp.toNat.repr).toList = _
    rw [String.toList_append, Nat.toList_repr]
    rfl
  have hhead : (s!"\nPath ({fps.length} states):").toList =
      "\nPath (".toList ++ (Nat.toDigits 10 fps.length ++ " states):".toList) := by
    show ("\nPath (" ++ fps.length.repr ++ " states):").toList = _
    rw [String.toList_append, String.toList_append, Nat.toList_repr, List.append_assoc]
  rw [listing, String.toList_append, hrow, hhead]
  simp only [List.append_assoc]

theorem row_append_inj {fps fps' : List Fingerprint} {x y : List Char}
    (h : row fps ++ '\n' :: x = row fps' ++ '\n' :: y) : fps = fps' ∧ x = y := by
  have hbehind : ∀ (fps : List Fingerprint) (z : List Char), ∀ c ∈ (row fps ++ '\n' :: z).head?, c.isDigit = false := by
    intro fps z c hc
    cases fps with
    | nil =>
      cases hc
      decide
    | cons fp fps =>
      cases hc
      decide
  induction fps generalizing fps' with
  | nil =>
    cases fps' with
    | nil => exact ⟨rfl, List.tail_eq_of_cons_eq h⟩
    | cons fp' fps' => exact absurd (List.head_eq_of_cons_eq h) (by decide)
  | cons fp fps ih =>
    cases fps' with
    | nil => exact absurd (List.head_eq_of_cons_eq h) (by decide)
    | cons fp' fps' =>
      simp only [row, List.flatMap_cons, List.cons_append, List.append_assoc] at h
      obtain ⟨hfp, hrest⟩ := toDigits_append_inj (hbehind fps x) (hbehind fps' y) (List.tail_eq_of_cons_eq h)
      obtain ⟨hfps, hxy⟩ := ih hrest
      exact ⟨by rw [UInt64.toNat_inj.1 hfp, hfps], hxy⟩

/-- The text of a screen tells the fingerprints of its path. -/
theorem fingerprints_eq_of_view_eq {m : Model σ α} {p q : Path σ α} {es fs : List (Explorer.Edge σ α)}
    (h : view m p es = view m q fs) : p.fingerprints m = q.fingerprints m := by
  have hlists := congrArg String.toList h
  simp only [view_eq, String.toList_append, toList_listing, List.append_assoc] at hlists
  -- the number of states ends at a blank
  obtain ⟨-, hrows⟩ := toDigits_append_inj (fun c hc => by cases hc; decide) (fun c hc => by cases hc; decide)
    (List.append_cancel_left hlists)
  exact (row_append_inj (List.append_cancel_left hrows)).1

/-- The number shown in front of an edge is the command that follows it. -/
theorem apply_shown (status : String) {edges : List (Explorer.Edge σ α)} {i : Nat} {e : Explorer.Edge σ α}
    (he : edges[i]? = some e) (hi : i < wordCount) (chain : List Fingerprint) :
    apply status edges chain (.ofLine (toString i)) = (chain ++ [e.fp], "") := by
  have hread := readWord_toString hi
  have hletter : ∀ text, readWord text = .error .invalid → toString i ≠ text := by
    rintro text herror rfl
    exact absurd (hread.symm.trans herror) (by simp)
  have hline : Command.ofLine (toString i) = .follow (UInt64.ofNat i) := by
    rw [Command.ofLine, if_neg (hletter "q" (by decide)), if_neg (hletter "b" (by decide)),
      if_neg (hletter "s" (by decide)), hread]
  rw [hline, apply, UInt64.toNat_ofNat_of_lt' hi, he]

end Session

end Console

end StateSpace
