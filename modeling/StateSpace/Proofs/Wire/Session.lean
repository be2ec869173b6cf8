import StateSpace.Proofs.Wire.Viability

/-!
# Reading on

Calls on one cursor, each of which goes on where the one before left it, whether that returned or failed.

* `Call.run`, `Cursor.afterAll` : the calls, and the cursor behind some of them;
* `Cursor.Within text c` : the cursor stands in the text, inside at most 512 lists;
* `Unrolls c` : reading at the cursor takes finitely many rounds, and goes one list deeper each time it starts over;
* `Orderly text c call` : a call that returns has advanced and left its lists; one that fails has not gone back;
* `session_orderly` : so it is for all calls, in any order, with any delimiters.
-/

namespace StateSpace.Wire

variable {n d room : Nat} {r : Bytes}

inductive Call where
  | parse | value | integer | string | identifier
  | sequence (opening closing : UInt8)
  deriving DecidableEq, Repr

inductive Answer where
  | value (v : Value)
  | integer (n : Int64)
  | bytes (content : Bytes)
  | sequence (vs : List Value)

/-- How many lists a call has to enter for its answer; a sequence is one of them. -/
def Answer.nesting : Answer → Nat
  | .value v => v.nesting
  | .integer _ | .bytes _ => 0
  | .sequence vs => Value.nestingAll vs + 1

def Call.run : Call → Reader Answer
  | .parse => Answer.value <$> Reader.parse
  | .value => Answer.value <$> Reader.value
  | .integer => Answer.integer <$> Reader.integer
  | .string => Answer.bytes <$> Reader.string
  | .identifier => Answer.bytes <$> Reader.identifier
  | .sequence opening closing => Answer.sequence <$> Reader.sequence opening closing

/-- The cursor behind a call, whatever became of it. -/
def Cursor.after (c : Cursor) (call : Call) : Cursor :=
  match call.run c with
  | .ok _ c' => c'
  | .error _ c' => c'

def Cursor.afterAll (text : Bytes) (calls : List Call) : Cursor := calls.foldl Cursor.after (Cursor.start text)

/-- The cursor stands in the text, inside at most 512 lists. -/
structure Cursor.Within (text : Bytes) (c : Cursor) : Prop where
  size : c.size = text.length
  rest : c.rest = text.drop c.pos
  pos_le : c.pos ≤ text.length
  depth_le : c.depth ≤ 512

theorem Cursor.within_iff {text : Bytes} {c : Cursor} :
    c.Within text ↔ ∃ d r, c = .facing text.length d r ∧ r <:+ text ∧ d ≤ 512 := by
  constructor
  · rintro ⟨hsize, hrest, hpos, hdepth⟩
    refine ⟨c.depth, c.rest, ?_, hrest ▸ List.drop_suffix _ _, hdepth⟩
    have hlen : text.length - c.rest.length = c.pos := by
      rw [hrest, List.length_drop]
      omega
    rw [facing, hlen, ← hsize]
  · rintro ⟨d, r, rfl, hr, hd⟩
    exact ⟨rfl, List.suffix_iff_eq_drop.1 hr, Nat.sub_le _ _, hd⟩

namespace Reader

/-! ## Recursion -/

variable {item item' : Reader Value} {opening closing : UInt8}

theorem expect_ok {a : Unit} {c : Cursor} (hn : r.length ≤ n) (h : expect opening (.facing n d r) = .ok a c) :
    ∃ u, c = .facing n d u ∧ u.length < r.length := by
  obtain ⟨u, htrim, rfl⟩ := (expect_gives.run hn _ _).1 h
  have hlen := length_trim_le r
  rw [htrim, List.length_cons] at hlen
  exact ⟨u, rfl, hlen⟩

theorem sequenceOf_congr (htakes : Takes item n (d + 1))
    (hagree : ∀ r, r.length ≤ n → item (.facing n (d + 1) r) = item' (.facing n (d + 1) r)) (hn : r.length ≤ n) :
    sequenceOf (some item) opening closing (.facing n d r) =
      sequenceOf (some item') opening closing (.facing n d r) := by
  rw [sequenceOf_eq, sequenceOf_eq]
  refine bind_run_congr fun _ c₁ hexpect => ?_
  obtain ⟨u, rfl, hlt⟩ := expect_ok hn hexpect
  have hu : u.length ≤ n := by omega
  refine bind_run_congr fun _ c₂ hmodify => ?_
  cases hmodify
  refine bind_run_left (bind_run_congr fun b c₃ hbyte => ?_)
  obtain ⟨u', rfl, -, hlen⟩ := peek_ok hu hbyte
  split
  · rfl
  · have hfuel : (b :: u').length ≤ n - (n - (b :: u').length) := by omega
    exact items_congr htakes (hlen.trans hu) hfuel hagree

theorem valueOf_congr (htakes : Takes item n (d + 1))
    (hagree : ∀ r, r.length ≤ n → item (.facing n (d + 1) r) = item' (.facing n (d + 1) r)) (hn : r.length ≤ n) :
    valueOf (some item) (.facing n d r) = valueOf (some item') (.facing n d r) := by
  refine bind_run_congr fun b c₁ hbyte => ?_
  obtain ⟨u, rfl, -, hlen⟩ := peek_ok hn hbyte
  have hu := hlen.trans hn
  split
  · rfl
  split
  · rfl
  split
  · exact bind_run_left (sequenceOf_congr htakes hagree hu)
  split
  · refine bind_run_congr fun name c₂ hname => ?_
    obtain ⟨r₂, hR, rfl⟩ := (identifier_gives.run hu _ _).1 hname
    have hr₂ := (identifier_gives.length_le hR).trans hu
    refine bind_run_congr fun _ c₃ hblanks => ?_
    rw [blanks_gives.yields ⟨rfl, rfl⟩ n d hr₂] at hblanks
    cases hblanks
    refine bind_run_congr fun bracket c₄ hnext => ?_
    cases hnext
    split
    · exact bind_run_left (sequenceOf_congr htakes hagree ((length_trim_le r₂).trans hr₂))
    · rfl
  · rfl

theorem itemAt_agree {room : Nat} (hd : maxDepth - d = room + 1) (r : Bytes) :
    valueWithin room (.facing n (d + 1) r) = value (.facing n (d + 1) r) := by
  have hroom : maxDepth - (d + 1) = room := by omega
  rw [value_facing, hroom]

theorem value_unfold (hn : r.length ≤ n) :
    value (.facing n d r) = valueOf (if d < maxDepth then some value else none) (.facing n d r) := by
  show valueOf (itemAt d) _ = _
  cases hroom : maxDepth - d with
  | zero =>
    rw [if_neg (by omega), itemAt_eq, hroom]
    rfl
  | succ room =>
    rw [if_pos (by omega), itemAt_eq, hroom]
    exact valueOf_congr (valueWithin_takes room n (d + 1)) (fun r _ => itemAt_agree hroom r) hn

theorem sequence_unfold (hn : r.length ≤ n) : sequence opening closing (.facing n d r) =
    sequenceOf (if d < maxDepth then some value else none) opening closing (.facing n d r) := by
  show sequenceOf (itemAt d) _ _ _ = _
  cases hroom : maxDepth - d with
  | zero =>
    rw [if_neg (by omega), itemAt_eq, hroom]
    rfl
  | succ room =>
    rw [if_pos (by omega), itemAt_eq, hroom]
    exact sequenceOf_congr (valueWithin_takes room n (d + 1)) (fun r _ => itemAt_agree hroom r) hn

theorem value_takes (n d : Nat) : Takes value n d :=
  (valueWithin_takes (maxDepth - d) n d).congr fun r _ => (value_facing n d r).symm

end Reader

open Reader (valueOf sequenceOf items Loop)

/-- Reading at the cursor comes to an end: a value or a sequence is read by the readers of values inside it, which
stand one list deeper and are absent inside 512 lists, and the loop over items ends after finitely many rounds. -/
structure Unrolls (c : Cursor) : Prop where
  value : Reader.value c = valueOf (if c.depth < 512 then some Reader.value else none) c
  sequence : ∀ opening closing, Reader.sequence opening closing c =
    sequenceOf (if c.depth < 512 then some Reader.value else none) opening closing c
  items : ∀ closing taken, Loop Reader.value closing taken c (items Reader.value closing (c.size - c.pos) taken c)

theorem Cursor.Within.unrolls {text : Bytes} {c : Cursor} (h : c.Within text) : Unrolls c := by
  obtain ⟨d, r, rfl, hr, -⟩ := Cursor.within_iff.1 h
  have hn := hr.length_le
  refine ⟨Reader.value_unfold hn, fun opening closing => Reader.sequence_unfold hn, fun closing taken => ?_⟩
  have hfuel : r.length ≤ text.length - (text.length - r.length) := by omega
  exact Reader.items_loop (Reader.value_takes _ _) hn hfuel

/-! ## Calls -/

namespace Reader

theorem Accepts.length_lt {v : Value} {r' : Bytes} (h : Accepts room r v r') : r'.length < r.length := by
  obtain ⟨t, u, htrim, hd, -, hleaves⟩ := h
  obtain ⟨b, t', rfl, -⟩ := hd.opens
  have hlen := length_trim_le r
  have hle : r'.length ≤ u.length := by
    cases v with
    | integer k => rw [hleaves.2]
    | symbol name =>
      rw [hleaves.2.2]
      exact length_trim_le u
    | string s => rw [show r' = u from hleaves]
    | list vs => rw [show r' = u from hleaves]
    | function head vs => rw [show r' = u from hleaves]
  rw [htrim, List.length_append, List.length_cons] at hlen
  omega

theorem enclosed_ok {closing : UInt8} {vs : List Value} {c : Cursor} (hn : r.length ≤ n)
    (h : enclosed (valueWithin room) closing (.facing n d r) = .ok vs c) :
    (∃ r', c = .facing n d r' ∧ r'.length ≤ r.length) ∧ ∀ v ∈ vs, v.nesting ≤ room := by
  obtain ⟨w, r', hr, rfl, -⟩ := (enclosed_steady (valueWithin_steady room) closing).ok hn h
  refine ⟨⟨r', rfl, by rw [hr, List.length_append]; omega⟩, ?_⟩
  obtain ⟨b, c₁, hbyte, hrest⟩ := bind_eq_ok.1 h
  obtain ⟨u, rfl, hnext, hu⟩ := peek_ok hn hbyte
  split at hrest
  · rw [bind_run (advance_yields n d (hu.trans hn))] at hrest
    cases hrest
    exact fun _ hv => nomatch hv
  · have hfuel : (b :: u).length ≤ n - (n - (b :: u).length) := by omega
    have hloop : Loop (valueWithin room) closing [] (.facing n d (b :: u)) (allItems (valueWithin room) closing _) :=
      items_loop (valueWithin_takes room n d) (hu.trans hn) hfuel
    exact hloop.nesting rfl (hu.trans hn) hrest fun _ hv => nomatch hv

theorem sequenceOf_ok {opening closing : UInt8} {vs : List Value} {c : Cursor} (hn : r.length ≤ n)
    (h : sequenceOf (itemWithin room) opening closing (.facing n d r) = .ok vs c) :
    ∃ r', c = .facing n d r' ∧ r'.length < r.length ∧ Value.nestingAll vs + 1 ≤ room := by
  cases room with
  | zero =>
    obtain ⟨_, _, _, hfail⟩ := bind_eq_ok.1 h
    cases hfail
  | succ k =>
    rw [itemWithin, sequenceOf_eq] at h
    obtain ⟨_, c₁, hexpect, h⟩ := bind_eq_ok.1 h
    obtain ⟨u, rfl, hu⟩ := expect_ok hn hexpect
    obtain ⟨_, _, ⟨⟩, h⟩ := bind_eq_ok.1 h
    obtain ⟨vs', c₂, hitems, h⟩ := bind_eq_ok.1 h
    have hn' : u.length ≤ n := by omega
    obtain ⟨⟨r', rfl, hr'⟩, hnesting⟩ := enclosed_ok (d := d + 1) hn' hitems
    cases h
    exact ⟨r', rfl, by omega, Nat.succ_le_succ (nestingAll_le_iff.2 hnesting)⟩

end Reader

/-- A call where so many lists may still be entered. -/
def Call.within (room : Nat) : Call → Reader Answer
  | .parse => Answer.value <$> Reader.parseWithin room
  | .value => Answer.value <$> Reader.valueWithin room
  | .integer => Answer.integer <$> Reader.integer
  | .string => Answer.bytes <$> Reader.string
  | .identifier => Answer.bytes <$> Reader.identifier
  | .sequence opening closing => Answer.sequence <$> Reader.sequenceOf (Reader.itemWithin room) opening closing

theorem Call.run_facing (call : Call) (n d : Nat) (r : Bytes) :
    call.run (.facing n d r) = call.within (maxDepth - d) (.facing n d r) := by
  cases call with
  | parse =>
    show EStateM.map _ _ _ = EStateM.map _ _ _
    rw [EStateM.map, EStateM.map, Reader.parse_facing]
  | value =>
    show EStateM.map _ _ _ = EStateM.map _ _ _
    rw [EStateM.map, EStateM.map, Reader.value_facing]
  | sequence opening closing =>
    rw [within, ← Reader.itemAt_eq]
    rfl
  | integer => rfl
  | string => rfl
  | identifier => rfl

/-- A call that returns has taken a byte, is in the list it was in, and its answer fits under the bound. -/
theorem Call.within_ok {call : Call} {a : Answer} {c : Cursor} (hn : r.length ≤ n)
    (h : call.within room (.facing n d r) = .ok a c) :
    ∃ r', c = .facing n d r' ∧ r'.length < r.length ∧ a.nesting ≤ room := by
  have hlen := length_trim_le r
  cases call with
  | parse =>
    obtain ⟨v, hv, rfl⟩ := Reader.map_eq_ok.1 h
    have hgives := (Reader.valueWithin_gives room r).bind fun v _ _ => Reader.finish_gives v
    obtain ⟨r', ⟨_, r₁, haccepts, ⟨rfl, hr'⟩, htrim⟩, rfl⟩ := (hgives.run hn v c).1 hv
    have hlt := haccepts.length_lt
    obtain ⟨_, _, _, _, hnesting, _⟩ := haccepts
    refine ⟨r', rfl, ?_, hnesting⟩
    rw [hr', htrim, List.length_nil]
    omega
  | value =>
    obtain ⟨v, hv, rfl⟩ := Reader.map_eq_ok.1 h
    obtain ⟨r', haccepts, rfl⟩ := ((Reader.valueWithin_gives room r).run hn v c).1 hv
    have hlt := haccepts.length_lt
    obtain ⟨_, _, _, _, hnesting, _⟩ := haccepts
    exact ⟨r', rfl, hlt, hnesting⟩
  | integer =>
    obtain ⟨v, hv, rfl⟩ := Reader.map_eq_ok.1 h
    obtain ⟨r', ⟨t, htrim, hnum, -⟩, rfl⟩ := (Reader.integer_gives.run hn v c).1 hv
    obtain ⟨b, t', rfl, -⟩ := (Denotes.integer hnum).opens
    rw [htrim, List.length_append, List.length_cons] at hlen
    exact ⟨r', rfl, by omega, Nat.zero_le room⟩
  | string =>
    obtain ⟨s, hs, rfl⟩ := Reader.map_eq_ok.1 h
    obtain ⟨r', ⟨body, htrim, -⟩, rfl⟩ := (Reader.string_gives.run hn s c).1 hs
    rw [htrim, List.length_cons, List.length_append, List.length_cons] at hlen
    exact ⟨r', rfl, by omega, Nat.zero_le room⟩
  | identifier =>
    obtain ⟨name, hname, rfl⟩ := Reader.map_eq_ok.1 h
    obtain ⟨r', ⟨htrim, hne, -⟩, rfl⟩ := (Reader.identifier_gives.run hn name c).1 hname
    have hpos := List.length_pos_iff.2 hne
    rw [htrim, List.length_append] at hlen
    exact ⟨r', rfl, by omega, Nat.zero_le room⟩
  | sequence opening closing =>
    obtain ⟨vs, hvs, rfl⟩ := Reader.map_eq_ok.1 h
    exact Reader.sequenceOf_ok hn hvs

theorem Call.within_steady (call : Call) (room : Nat) (r : Bytes) :
    Reader.Steady room (call.within room) r fun _ _ _ => True := by
  cases call with
  | parse => exact (Reader.parseWithin_steady room r).map.mono fun _ _ _ _ _ => trivial
  | value => exact (Reader.valueWithin_steady room r).map.mono fun _ _ _ _ _ => trivial
  | integer => exact Reader.integer_steady.map.mono fun _ _ _ _ _ => trivial
  | string => exact Reader.string_steady.map.mono fun _ _ _ _ _ => trivial
  | identifier => exact Reader.identifier_steady.map.mono fun _ _ _ _ _ => trivial
  | sequence opening closing =>
    have hbreaks : Reader.Breaks room := fun k _ r => Reader.valueWithin_steady k r
    exact (Reader.sequenceOf_steady hbreaks opening closing).map.mono fun _ _ _ _ _ => trivial

/-- What a call does to the cursor: one that returns has advanced and left the lists it entered, one that fails has
not gone back and may stay in them. -/
structure Orderly (text : Bytes) (c : Cursor) (call : Call) : Prop where
  ok : ∀ a c', call.run c = .ok a c' →
    c'.Within text ∧ c.pos < c'.pos ∧ c'.depth = c.depth ∧ a.nesting ≤ 512 - c.depth
  error : ∀ e c', call.run c = .error e c' →
    c'.Within text ∧ c.pos ≤ c'.pos ∧ c.depth ≤ c'.depth ∧ e.position ≤ text.length

theorem Cursor.Within.orderly {text : Bytes} {c : Cursor} (h : c.Within text) (call : Call) : Orderly text c call := by
  obtain ⟨d, r, rfl, hr, hd⟩ := Cursor.within_iff.1 h
  have hn := hr.length_le
  constructor
  · intro a c' hrun
    rw [Call.run_facing] at hrun
    obtain ⟨w, r', rfl, rfl, -⟩ := (call.within_steady _ r).ok hn hrun
    obtain ⟨r'', hr'', hlt, hnesting⟩ := Call.within_ok hn hrun
    cases hr''
    refine ⟨Cursor.within_iff.2 ⟨d, r', rfl, (List.suffix_append w r').trans hr, hd⟩, ?_, rfl, hnesting⟩
    exact Nat.sub_lt_sub_left (Nat.lt_of_lt_of_le hlt hn) hlt
  · intro e c' hrun
    rw [Call.run_facing] at hrun
    obtain ⟨⟨d', r', rfl, hr', hlo, hhi⟩, _, u, _, hpos, _⟩ := (call.within_steady _ r).error hn hrun
    have hroom : maxDepth = 512 := rfl
    refine ⟨Cursor.within_iff.2 ⟨d', r', rfl, hr'.trans hr, by omega⟩, ?_, hlo, hpos ▸ Nat.sub_le _ _⟩
    exact Nat.sub_le_sub_left hr'.length_le _

theorem Cursor.Within.after {text : Bytes} {c : Cursor} (h : c.Within text) (call : Call) :
    (c.after call).Within text := by
  unfold Cursor.after
  cases hrun : call.run c with
  | ok a c' => exact ((h.orderly call).ok a c' hrun).1
  | error e c' => exact ((h.orderly call).error e c' hrun).1

theorem Cursor.within_afterAll (text : Bytes) (calls : List Call) : (Cursor.afterAll text calls).Within text := by
  have hcalls : ∀ c : Cursor, c.Within text → (calls.foldl Cursor.after c).Within text := by
    induction calls with
    | nil =>
      intro c h
      exact h
    | cons call calls ih =>
      intro c h
      exact ih _ (h.after call)
  exact hcalls _ ⟨rfl, rfl, Nat.zero_le _, Nat.zero_le _⟩

/-- **Any sequence of reads is orderly**: behind any calls on one cursor, failed ones among them, reading comes to an
end, goes forward and keeps to the bound on nesting. -/
theorem session_orderly (text : Bytes) : (∀ calls, (Cursor.afterAll text calls).Within text) ∧
    ∀ c : Cursor, c.Within text → Unrolls c ∧ ∀ call, Orderly text c call :=
  ⟨Cursor.within_afterAll text, fun _ h => ⟨h.unrolls, h.orderly⟩⟩

/-- A list that breaks off, and another one. -/
def brokenList : Bytes := Bytes.ofString "\x7b1 2\x7b3\x7d"

/-- The first list is left open where it breaks off, and the other one is read inside it. -/
theorem session_orderly_brokenList :
    (Cursor.afterAll brokenList [.value]).depth = 1 ∧
    (Cursor.afterAll brokenList [.value]).pos = 4 ∧
    (Cursor.afterAll brokenList [.value, .value]).pos = 7 ∧
    (Cursor.afterAll brokenList [.value]).Within brokenList ∧
    Unrolls (Cursor.afterAll brokenList [.value]) ∧ Orderly brokenList (Cursor.afterAll brokenList [.value]) .value := by
  obtain ⟨hwithin, horderly⟩ := session_orderly brokenList
  obtain ⟨hunrolls, hcalls⟩ := horderly _ (hwithin [.value])
  exact ⟨by decide +kernel, by decide +kernel, by decide +kernel, hwithin [.value], hunrolls, hcalls .value⟩

end StateSpace.Wire
