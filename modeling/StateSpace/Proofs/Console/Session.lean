import StateSpace.Console.Programs
import StateSpace.Proofs.Console.Screen
import StateSpace.Proofs.Path.Replay
import StateSpace.Proofs.Systems.TwoPhase.Census

/-!
# A session does not lose its place

A session keeps a chain of fingerprints and replays it before each command. Where two successors of a state have one
fingerprint, the replay may differ from what was chosen, so all is said of the replayed path.

* `Foremost.take`, `replay_of_isPrefix` : what is replayed can be cut short; `replay_extend` : and extended by an edge of its
  last state;
* `Session.chainAfter m chain lines` : the chain that lines lead to; `replay_chainAfter` : it can be replayed if the first
  chain could;
* `runFrom_shows`, `runFrom_append` : what a session writes, and how it goes on after some of its lines;
* `Session.KeepsPlace` : what this says of a whole session; `KeepsPlace.lists` : its screens list the chain;
* `explored_ends` : exploring the protocol ends without a complaint, whatever the status of the search is meanwhile;
* `session_keeps_place` : it holds of every session.
-/

namespace StateSpace

variable {σ α : Type} {m : Model σ α}

/-! ## Edges -/

theorem Model.mem_edges {s : σ} {as : List α} {es : List (Edge σ α)} (h : m.edges s as = .ok es) {e : Edge σ α}
    (he : e ∈ es) : e.action ∈ as ∧ m.next s e.action = .ok (some e.target) := by
  induction as generalizing es with
  | nil =>
    cases h
    cases he
  | cons a as ih =>
    rw [Model.edges] at h
    obtain ⟨next, hnext, hrest⟩ := Path.exists_of_bind_eq_ok h
    cases next with
    | none =>
      obtain ⟨hmem, ht⟩ := ih hrest he
      exact ⟨List.mem_cons_of_mem _ hmem, ht⟩
    | some t =>
      obtain ⟨es', hes, hcons⟩ := Path.exists_of_bind_eq_ok hrest
      cases hcons
      rcases List.mem_cons.1 he with rfl | he
      · exact ⟨List.mem_cons_self, hnext⟩
      · obtain ⟨hmem, ht⟩ := ih hes he
        exact ⟨List.mem_cons_of_mem _ hmem, ht⟩

theorem Model.edges_ok {s : σ} {as : List α} (h : ∀ a ∈ as, ∃ next, m.next s a = .ok next) :
    ∃ es, m.edges s as = .ok es := by
  induction as with
  | nil => exact ⟨[], rfl⟩
  | cons a as ih =>
    obtain ⟨⟨next, hnext⟩, hrest⟩ := List.forall_mem_cons.1 h
    obtain ⟨es, hes⟩ := ih hrest
    rw [Model.edges, hnext, Path.ok_bind]
    cases next with
    | none => exact ⟨es, hes⟩
    | some t =>
      dsimp only
      rw [hes]
      exact ⟨_, rfl⟩

namespace Explorer

theorem mem_edges {s : σ} {es : List (Edge σ α)} (h : edges m s = .ok es) {e : Edge σ α} (he : e ∈ es) :
    m.Step s e.action e.state ∧ e.fp = m.fingerprint e.state := by
  obtain ⟨found, hfound, hmap⟩ := Path.exists_of_bind_eq_ok h
  obtain ⟨as, has, hedges⟩ := Path.exists_of_bind_eq_ok hfound
  cases hmap
  obtain ⟨x, hx, rfl⟩ := List.mem_map.1 he
  obtain ⟨hmem, ht⟩ := Model.mem_edges hedges hx
  exact ⟨⟨⟨as, has, hmem⟩, ht⟩, rfl⟩

theorem edges_ok (hm : m.Faultless) {s : σ} (hs : m.unbounded.Reachable s) : ∃ es, edges m s = .ok es := by
  obtain ⟨as, has⟩ := hm.actions s hs
  obtain ⟨es, hes⟩ := Model.edges_ok fun a ha => hm.next s as a hs has ha
  rw [edges, Model.successors, has, Path.ok_bind, hes]
  exact ⟨_, rfl⟩

end Explorer

/-! ## Shorter and longer chains -/

namespace Path

theorem Chosen.take {s : σ} {steps : List (α × σ)} (h : Chosen m s steps) (k : Nat) : Chosen m s (steps.take k) := by
  induction steps generalizing s k with
  | nil => rwa [List.take_nil]
  | cons x steps ih =>
    cases k with
    | zero => exact trivial
    | succ k => exact ⟨h.1, ih h.2 k⟩

theorem Foremost.take {p : Path σ α} (h : p.Foremost m) (k : Nat) : (⟨p.init, p.steps.take k⟩ : Path σ α).Foremost m :=
  ⟨h.init, h.steps.take k⟩

theorem replay_of_isPrefix {fps front : List Fingerprint} {p : Path σ α} (h : replay m fps = .ok (some p))
    (hfront : front <+: fps) (hne : front ≠ []) :
    replay m front = .ok (some ⟨p.init, p.steps.take (front.length - 1)⟩) := by
  obtain ⟨hp, rfl⟩ := replay_eq_some_iff.1 h
  refine replay_eq_some_iff.2 ⟨hp.take _, ?_⟩
  obtain ⟨k, hk⟩ := Nat.exists_eq_add_one_of_ne_zero (List.length_eq_zero_iff.not.2 hne)
  have hcut : front = (p.fingerprints m).take (k + 1) := by
    rw [← hk]
    exact List.prefix_iff_eq_take.1 hfront
  rw [hk, Nat.add_sub_cancel, hcut, fingerprints_eq, fingerprints_eq, List.take_succ_cons, List.map_take]

theorem Foremost.reachable {p : Path σ α} (h : p.Foremost m) : m.unbounded.Reachable p.last :=
  h.isRun.lead (P := fun s _ => m.unbounded.Reachable s) (fun _ ht => .init ht) fun _ _ _ _ hb hstep hs => hs.step hb hstep

/-- A chain that is replayed can be extended by any edge of the last state. The step that is added need not be that edge, but
has its fingerprint. -/
theorem replay_extend (hm : m.Faultless) {fps : List Fingerprint} {p : Path σ α} (h : replay m fps = .ok (some p))
    {es : List (Explorer.Edge σ α)} (hes : Explorer.edges m p.last = .ok es) {e : Explorer.Edge σ α} (he : e ∈ es) :
    ∃ a t, replay m (fps ++ [e.fp]) = .ok (some (p.push a t)) := by
  obtain ⟨hp, rfl⟩ := replay_eq_some_iff.1 h
  obtain ⟨hstep, hfp⟩ := Explorer.mem_edges hes he
  obtain ⟨a, t, hsel⟩ := hm.selects hp.reachable hstep
  have hft := hsel.fingerprint_eq
  rw [← hft] at hsel
  exact ⟨a, t, replay_eq_some_iff.2 ⟨hp.push hsel, by rw [fingerprints_push, hft, hfp]⟩⟩

end Path

namespace Console

theorem Transcript.after_mk (code : Nat) (out err text : String) :
    (⟨code, out, err⟩ : Transcript).after text = ⟨code, text ++ out, err⟩ := rfl

theorem Transcript.after_after (t : Transcript) (text more : String) : (t.after text).after more = t.after (more ++ text) := by
  simp only [Transcript.after, String.append_assoc]

namespace Session

/-! ## Commands and chains -/

def nextChain (edges : List (Explorer.Edge σ α)) (chain : List Fingerprint) (c : Command) : List Fingerprint :=
  (apply "" edges chain c).1

/-- The chain that lines lead to, each of which is read while the path of the chain so far is shown. -/
def chainAfter (m : Model σ α) (chain : List Fingerprint) : List String → List Fingerprint
  | [] => chain
  | line :: rest =>
    match Path.replay m chain with
    | .ok (some path) =>
      match Explorer.edges m path.last with
      | .ok edges => chainAfter m (nextChain edges chain (.ofLine line)) rest
      | .error _ => chain
    | _ => chain

theorem apply_fst (status : String) (edges : List (Explorer.Edge σ α)) (chain : List Fingerprint) (c : Command) :
    (apply status edges chain c).1 = nextChain edges chain c := by
  cases c with
  | follow n =>
    simp only [nextChain, apply]
  | _ => rfl

theorem ofLine_back : Command.ofLine "b" = .back := by
  simp [Command.ofLine]

section

variable {chain : List Fingerprint} {path : Path σ α} {edges : List (Explorer.Edge σ α)}

theorem nextChain_follow {n : UInt64} {e : Explorer.Edge σ α} (he : edges[n.toNat]? = some e) (chain : List Fingerprint) :
    nextChain edges chain (.follow n) = chain ++ [e.fp] := by
  rw [nextChain, apply, he]

theorem nextChain_back (edges : List (Explorer.Edge σ α)) (h : chain ≠ []) (fp : Fingerprint) :
    nextChain edges (chain ++ [fp]) .back = chain := by
  have hlen : (chain ++ [fp]).length > 1 := by
    rw [List.length_append, List.length_singleton]
    have := List.length_pos_iff.2 h
    omega
  rw [nextChain, apply, if_pos hlen, List.dropLast_concat]

theorem ne_nil_of_replay (h : Path.replay m chain = .ok (some path)) : chain ≠ [] := by
  rintro rfl
  cases h

theorem edges_of_replay (hm : m.Faultless) (hpath : Path.replay m chain = .ok (some path)) :
    ∃ edges, Explorer.edges m path.last = .ok edges :=
  Explorer.edges_ok hm (Path.replay_eq_some_iff.1 hpath).1.reachable

theorem chainAfter_cons (hpath : Path.replay m chain = .ok (some path)) (hedges : Explorer.edges m path.last = .ok edges)
    (line : String) (rest : List String) :
    chainAfter m chain (line :: rest) = chainAfter m (nextChain edges chain (.ofLine line)) rest := by
  rw [chainAfter, hpath]
  dsimp only
  rw [hedges]

/-- A command leads from a chain that can be replayed to another. -/
theorem replay_nextChain (hm : m.Faultless) (hpath : Path.replay m chain = .ok (some path))
    (hedges : Explorer.edges m path.last = .ok edges) (c : Command) :
    ∃ path', Path.replay m (nextChain edges chain c) = .ok (some path') := by
  cases c with
  | quit | status | unknown => exact ⟨path, hpath⟩
  | back =>
    simp only [nextChain, apply]
    split
    · rename_i hlen
      have hne : chain.dropLast ≠ [] := by
        rw [← List.length_pos_iff, List.length_dropLast]
        omega
      exact ⟨_, Path.replay_of_isPrefix hpath (List.dropLast_prefix chain) hne⟩
    · exact ⟨path, hpath⟩
  | follow n =>
    simp only [nextChain, apply]
    cases he : edges[n.toNat]? with
    | none => exact ⟨path, hpath⟩
    | some e =>
      obtain ⟨a, t, hext⟩ := Path.replay_extend hm hpath hedges (List.mem_of_getElem? he)
      exact ⟨_, hext⟩

/-- The chain that lines lead to can be replayed if the first one could. -/
theorem replay_chainAfter (hm : m.Faultless) (hpath : Path.replay m chain = .ok (some path)) (lines : List String) :
    ∃ path', Path.replay m (chainAfter m chain lines) = .ok (some path') := by
  induction lines generalizing chain path with
  | nil => exact ⟨path, hpath⟩
  | cons line rest ih =>
    obtain ⟨edges, hedges⟩ := edges_of_replay hm hpath
    obtain ⟨path', hnext⟩ := replay_nextChain hm hpath hedges (.ofLine line)
    rw [chainAfter_cons hpath hedges]
    exact ih hnext

theorem chainAfter_append (hm : m.Faultless) (hpath : Path.replay m chain = .ok (some path)) (front back : List String) :
    chainAfter m chain (front ++ back) = chainAfter m (chainAfter m chain front) back := by
  induction front generalizing chain path with
  | nil => rfl
  | cons line front ih =>
    obtain ⟨edges, hedges⟩ := edges_of_replay hm hpath
    obtain ⟨path', hnext⟩ := replay_nextChain hm hpath hedges (.ofLine line)
    rw [List.cons_append, chainAfter_cons hpath hedges, chainAfter_cons hpath hedges]
    exact ih hnext

/-! ## What a session writes -/

variable {status : Nat → String} {round : Nat}

theorem runFrom_nil (hpath : Path.replay m chain = .ok (some path)) (hedges : Explorer.edges m path.last = .ok edges) :
    runFrom m status round [] chain = .ok ⟨0, view m path edges ++ "> " ++ status round, ""⟩ := by
  rw [runFrom, hpath, Path.ok_bind]
  dsimp only
  rw [hedges]
  rfl

theorem runFrom_quit (hpath : Path.replay m chain = .ok (some path)) (hedges : Explorer.edges m path.last = .ok edges)
    {line : String} (hline : Command.ofLine line = .quit) (rest : List String) :
    runFrom m status round (line :: rest) chain = .ok ⟨0, view m path edges ++ "> " ++ status round, ""⟩ := by
  rw [runFrom, hpath, Path.ok_bind]
  dsimp only
  rw [hedges, Path.ok_bind, hline]
  rfl

theorem runFrom_cons (hpath : Path.replay m chain = .ok (some path)) (hedges : Explorer.edges m path.last = .ok edges)
    {line : String} (hline : Command.ofLine line ≠ .quit) {rest : List String} {t : Transcript}
    (hrest : runFrom m status (round + 1) rest (nextChain edges chain (.ofLine line)) = .ok t) :
    runFrom m status round (line :: rest) chain =
      .ok (t.after (view m path edges ++ "> " ++ (apply (status round) edges chain (.ofLine line)).2)) := by
  rw [runFrom, hpath, Path.ok_bind]
  dsimp only
  rw [hedges, Path.ok_bind]
  rw [← apply_fst (status round)] at hrest
  cases hc : Command.ofLine line with
  | quit => exact absurd hc hline
  | _ =>
    rw [hc] at hrest
    dsimp only
    rw [hrest]
    rfl

/-- A session comes to its end, and first shows the path of its chain. -/
theorem runFrom_shows (status : Nat → String) (round : Nat) (hm : m.Faultless) (hpath : Path.replay m chain = .ok (some path))
    (hedges : Explorer.edges m path.last = .ok edges) (lines : List String) :
    ∃ behind, runFrom m status round lines chain = .ok ⟨0, view m path edges ++ "> " ++ behind, ""⟩ := by
  induction lines generalizing round chain path edges with
  | nil => exact ⟨status round, runFrom_nil hpath hedges⟩
  | cons line rest ih =>
    by_cases hline : Command.ofLine line = .quit
    · exact ⟨status round, runFrom_quit hpath hedges hline rest⟩
    · obtain ⟨path', hnext⟩ := replay_nextChain hm hpath hedges (.ofLine line)
      obtain ⟨edges', hedges'⟩ := edges_of_replay hm hnext
      obtain ⟨behind, hrest⟩ := ih (round + 1) hnext hedges'
      refine ⟨(apply (status round) edges chain (.ofLine line)).2 ++ (view m path' edges' ++ "> " ++ behind), ?_⟩
      rw [runFrom_cons hpath hedges hline hrest, Transcript.after_mk]
      simp only [String.append_assoc]

/-- After lines that do not quit, a session goes on from the chain that they lead to. -/
theorem runFrom_append (hm : m.Faultless) (hpath : Path.replay m chain = .ok (some path)) {front : List String}
    (hfront : ∀ line ∈ front, Command.ofLine line ≠ .quit) {rest : List String} {t : Transcript}
    (hrest : runFrom m status (round + front.length) rest (chainAfter m chain front) = .ok t) :
    ∃ text, runFrom m status round (front ++ rest) chain = .ok (t.after text) := by
  induction front generalizing round chain path with
  | nil =>
    refine ⟨"", ?_⟩
    rw [Transcript.after, String.empty_append]
    exact hrest
  | cons line front ih =>
    obtain ⟨edges, hedges⟩ := edges_of_replay hm hpath
    obtain ⟨path', hnext⟩ := replay_nextChain hm hpath hedges (.ofLine line)
    obtain ⟨hline, hlines⟩ := List.forall_mem_cons.1 hfront
    have hround : round + (line :: front).length = round + 1 + front.length := by
      rw [List.length_cons]
      omega
    rw [chainAfter_cons hpath hedges, hround] at hrest
    obtain ⟨text, htext⟩ := ih hnext hlines hrest
    refine ⟨view m path edges ++ "> " ++ (apply (status round) edges chain (.ofLine line)).2 ++ text, ?_⟩
    rw [List.cons_append, runFrom_cons hpath hedges hline htext, Transcript.after_after]

end

/-! ## Whole sessions -/

/-- When a session has read some lines and has the rest before it, it stands at the chain and shows the path, to which the
chain is replayed; it ends without a complaint. -/
def Shows (m : Model σ α) (status : Nat → String) (read rest : List String) (chain : List Fingerprint)
    (path : Path σ α) : Prop :=
  ∃ edges before behind, Path.replay m chain = .ok (some path) ∧ Explorer.edges m path.last = .ok edges ∧
    runFrom m status read.length rest chain = .ok ⟨0, view m path edges ++ "> " ++ behind, ""⟩ ∧
    run m status (read ++ rest) = .ok ⟨0, before ++ (view m path edges ++ "> " ++ behind), ""⟩

/-- A session from an initial state never loses its place. -/
structure KeepsPlace (m : Model σ α) (s₀ : σ) (status : Nat → String) (lines : List String) : Prop where
  /-- It ends, and not because a chain could not be replayed. -/
  ends : ∃ text, run m status lines = .ok ⟨0, text, ""⟩
  /-- After any of its lines the chain is not empty, and the path shown has its fingerprints and ends in a reachable state. -/
  rounds : ∀ read rest, lines = read ++ rest → (∀ line ∈ read, Command.ofLine line ≠ .quit) →
    ∃ path : Path σ α, Shows m status read rest (chainAfter m [m.fingerprint s₀] read) path ∧
      chainAfter m [m.fingerprint s₀] read ≠ [] ∧ path.fingerprints m = chainAfter m [m.fingerprint s₀] read ∧
      m.unbounded.Reachable path.last
  /-- Going back after an edge was followed shows the path that was shown before it. -/
  back : ∀ read line rest n path edges e, lines = read ++ line :: "b" :: rest →
    (∀ line ∈ read, Command.ofLine line ≠ .quit) → Command.ofLine line = .follow n →
    Shows m status read (line :: "b" :: rest) (chainAfter m [m.fingerprint s₀] read) path →
    Explorer.edges m path.last = .ok edges → edges[n.toNat]? = some e →
    (∃ longer, Shows m status (read ++ [line]) ("b" :: rest) (chainAfter m [m.fingerprint s₀] read ++ [e.fp]) longer) ∧
      Shows m status (read ++ [line, "b"]) rest (chainAfter m [m.fingerprint s₀] (read ++ [line, "b"])) path

/-- After any of its lines, what a session writes next is the list of the fingerprints it has come along. -/
theorem KeepsPlace.lists {s₀ : σ} {status : Nat → String} {lines read rest : List String}
    (h : KeepsPlace m s₀ status lines) (hlines : lines = read ++ rest)
    (hread : ∀ line ∈ read, Command.ofLine line ≠ .quit) :
    ∃ before behind, run m status lines =
      .ok ⟨0, before ++ (listing (chainAfter m [m.fingerprint s₀] read) ++ "\nState: " ++ behind), ""⟩ := by
  obtain ⟨path, ⟨edges, before, behind, -, -, -, hrun⟩, -, hfps, -⟩ := h.rounds read rest hlines hread
  refine ⟨before, m.formatState path.last ++ "\n" ++ menu m edges ++ "> " ++ behind, ?_⟩
  rw [hlines, hrun, view_eq, hfps]
  simp only [String.append_assoc]

section

variable {s₀ : σ} {others : List σ} {path : Path σ α}

theorem run_eq (hinit : m.initStates = s₀ :: others) (status : Nat → String) (lines : List String) :
    run m status lines = runFrom m status 0 lines [m.fingerprint s₀] := by
  rw [run, Explorer.roots, hinit]
  rfl

theorem replay_first (hinit : m.initStates = s₀ :: others) : Path.replay m [m.fingerprint s₀] = .ok (some (.single s₀)) := by
  refine Path.replay_eq_some_iff.2 ⟨⟨?_, trivial⟩, rfl⟩
  rw [hinit]
  exact List.find?_cons_of_pos (by simp [Path.single])

theorem shows_chainAfter (status : Nat → String) (hm : m.Faultless) (hinit : m.initStates = s₀ :: others)
    {read : List String} (hread : ∀ line ∈ read, Command.ofLine line ≠ .quit) (rest : List String)
    (hpath : Path.replay m (chainAfter m [m.fingerprint s₀] read) = .ok (some path)) :
    Shows m status read rest (chainAfter m [m.fingerprint s₀] read) path := by
  obtain ⟨edges, hedges⟩ := edges_of_replay hm hpath
  obtain ⟨behind, hrest⟩ := runFrom_shows status read.length hm hpath hedges rest
  rw [← Nat.zero_add read.length] at hrest
  obtain ⟨before, hrun⟩ := runFrom_append hm (replay_first hinit) hread hrest
  rw [Nat.zero_add] at hrest
  exact ⟨edges, before, behind, hpath, hedges, hrest, (run_eq hinit status _).trans hrun⟩

/-- Following an edge lengthens the chain by its fingerprint, and going back takes it off again. -/
theorem chainAfter_follow_back (hm : m.Faultless) (hinit : m.initStates = s₀ :: others) {read : List String}
    (hpath : Path.replay m (chainAfter m [m.fingerprint s₀] read) = .ok (some path))
    {edges : List (Explorer.Edge σ α)} (hedges : Explorer.edges m path.last = .ok edges) {line : String} {n : UInt64}
    (hline : Command.ofLine line = .follow n) {e : Explorer.Edge σ α} (he : edges[n.toNat]? = some e) :
    chainAfter m [m.fingerprint s₀] (read ++ [line]) = chainAfter m [m.fingerprint s₀] read ++ [e.fp] ∧
      chainAfter m [m.fingerprint s₀] ((read ++ [line]) ++ ["b"]) = chainAfter m [m.fingerprint s₀] read := by
  have hfollow : chainAfter m [m.fingerprint s₀] (read ++ [line]) = chainAfter m [m.fingerprint s₀] read ++ [e.fp] := by
    rw [chainAfter_append hm (replay_first hinit), chainAfter_cons hpath hedges, hline]
    exact nextChain_follow he _
  refine ⟨hfollow, ?_⟩
  obtain ⟨longer, hlonger⟩ := replay_chainAfter hm (replay_first hinit) (read ++ [line])
  obtain ⟨edges', hedges'⟩ := edges_of_replay hm hlonger
  rw [chainAfter_append hm (replay_first hinit), chainAfter_cons hlonger hedges', hfollow, ofLine_back]
  exact nextChain_back edges' (ne_nil_of_replay hpath) e.fp

theorem keepsPlace (hm : m.Faultless) (hinit : m.initStates = s₀ :: others) (status : Nat → String) (lines : List String) :
    KeepsPlace m s₀ status lines := by
  refine ⟨?_, fun read rest hlines hread => ?_, fun read line rest n path edges e hlines hread hline hshows hedges he => ?_⟩
  · obtain ⟨edges, hedges⟩ := edges_of_replay hm (replay_first hinit)
    obtain ⟨behind, hrun⟩ := runFrom_shows status 0 hm (replay_first hinit) hedges lines
    exact ⟨_, (run_eq hinit status lines).trans hrun⟩
  · obtain ⟨path, hpath⟩ := replay_chainAfter hm (replay_first hinit) read
    obtain ⟨hfore, hfps⟩ := Path.replay_eq_some_iff.1 hpath
    exact ⟨path, shows_chainAfter status hm hinit hread rest hpath, ne_nil_of_replay hpath, hfps, hfore.reachable⟩
  · obtain ⟨-, -, -, hpath, -⟩ := hshows
    obtain ⟨hfollow, hback⟩ := chainAfter_follow_back hm hinit hpath hedges hline he
    obtain ⟨longer, hlonger⟩ := replay_chainAfter hm (replay_first hinit) (read ++ [line])
    have hgo : ∀ l ∈ read ++ [line], Command.ofLine l ≠ .quit :=
      List.forall_mem_append.2 ⟨hread, List.forall_mem_singleton.2 (by rw [hline]; simp)⟩
    have hgo' : ∀ l ∈ (read ++ [line]) ++ ["b"], Command.ofLine l ≠ .quit :=
      List.forall_mem_append.2 ⟨hgo, List.forall_mem_singleton.2 (by rw [ofLine_back]; simp)⟩
    have hthere := shows_chainAfter status hm hinit hgo ("b" :: rest) hlonger
    have hagain := shows_chainAfter status hm hinit hgo' rest (by rw [hback]; exact hpath)
    rw [hfollow] at hthere
    rw [List.append_assoc] at hagain
    exact ⟨⟨longer, hthere⟩, hagain⟩

end

end Session

/-! ## The protocol -/

theorem keepsPlace_twoPhase (n : Nat) (status : Nat → String) (lines : List String) :
    Session.KeepsPlace (TwoPhase.model n) (TwoPhase.initial n) status lines := by
  have hm : (TwoPhase.model n).Faultless := ⟨fun _ _ => ⟨_, rfl⟩, fun _ _ _ _ _ _ => ⟨_, rfl⟩⟩
  have hinit : (TwoPhase.model n).initStates = [TwoPhase.initial n] := rfl
  exact Session.keepsPlace hm hinit status lines

/-- However the search comes along meanwhile, exploring the protocol ends without a complaint. -/
theorem explored_ends (rms : UInt64) (status : Nat → Search.Status) (lines : List String) :
    ∃ out, CommitProgram.explored rms status lines = ⟨0, out, ""⟩ := by
  obtain ⟨text, hrun⟩ := (keepsPlace_twoPhase rms.toNat (fun round => statusText (status round)) lines).ends
  rw [CommitProgram.explored, hrun]
  exact ⟨text, rfl⟩

theorem transcript_explore (rms : UInt64) (elapsed : String) (lines : List String) :
    ∃ out, CommitProgram.transcript (.explore rms) elapsed lines (CommitProgram.search (.explore rms)) = ⟨0, out, ""⟩ := by
  have hone : ({} : Config TwoPhase.State).workers ≤ 1 := Nat.le_refl 1
  obtain ⟨s, n, hs, -⟩ := Search.check_solo hone (Search.seed_ok (TwoPhase.model_total rms.toNat) {})
  have hsearch : CommitProgram.search (.explore rms) = .ok s := hs
  obtain ⟨out, hout⟩ := explored_ends rms (fun _ => s.status (TwoPhase.model rms.toNat)) lines
  rw [hsearch]
  simp only [CommitProgram.transcript, hout]
  exact ⟨_, Transcript.after_mk ..⟩

/-- **A session never loses its place**, whichever lines it reads and whatever fingerprints coincide, be it on
two-phase commit or on any other model without faults. -/
theorem session_keeps_place :
    (∀ n, (TwoPhase.model n).unbounded = TwoPhase.model n ∧
      ∀ status lines, Session.KeepsPlace (TwoPhase.model n) (TwoPhase.initial n) status lines) ∧
    (∀ rms lines, (∀ status, ∃ out, CommitProgram.explored rms status lines = ⟨0, out, ""⟩) ∧
      ∀ elapsed, ∃ out, CommitProgram.transcript (.explore rms) elapsed lines
        (CommitProgram.search (.explore rms)) = ⟨0, out, ""⟩) ∧
    ∀ {σ α : Type} (m : Model σ α) (s₀ : σ) (others : List σ), m.Faultless → m.initStates = s₀ :: others →
      (∀ status lines, Session.KeepsPlace m s₀ status lines) ∧
      ∀ (fps : List Fingerprint) (p : Path σ α), Path.replay m fps = .ok (some p) →
        (∀ front, front <+: fps → front ≠ [] →
          ∃ q : Path σ α, Path.replay m front = .ok (some q) ∧ q.init = p.init ∧ q.steps <+: p.steps) ∧
        ∀ es e, Explorer.edges m p.last = .ok es → e ∈ es →
          ∃ a t, Path.replay m (fps ++ [e.fp]) = .ok (some (p.push a t)) := by
  refine ⟨fun n => ⟨rfl, keepsPlace_twoPhase n⟩, fun rms lines => ⟨fun status => explored_ends rms status lines,
    fun elapsed => transcript_explore rms elapsed lines⟩, fun m s₀ others hm hinit => ⟨Session.keepsPlace hm hinit,
    fun fps p hp => ⟨fun front hfront hne => ?_, fun es e hes he => ?_⟩⟩⟩
  · exact ⟨_, Path.replay_of_isPrefix hp hfront hne, rfl, List.take_prefix _ _⟩
  · exact Path.replay_extend hm hp hes he

/-- A state whose two successors have one fingerprint. -/
def twins : Graph where
  init := [0]
  fans := #[.edges [.state 1, .state 2], .edges [], .edges [.state 0]]
  hashes := #[5, 9, 9]

/-- The second successor is asked for and the first is shown; going back shows the first state again. -/
theorem session_keeps_place_twins :
    Session.KeepsPlace twins.model 0 (fun _ => "") ["1", "b", "q"] ∧
    Session.chainAfter twins.model [twins.model.fingerprint 0] ["1"] =
      [twins.model.fingerprint 0, twins.model.fingerprint 2] ∧
    Path.replay twins.model (Session.chainAfter twins.model [twins.model.fingerprint 0] ["1"]) = .ok (some ⟨0, [(0, 1)]⟩) ∧
    Session.Shows twins.model (fun _ => "") ["1", "b"] ["q"]
      (Session.chainAfter twins.model [twins.model.fingerprint 0] ["1", "b"]) ⟨0, []⟩ := by
  have hm : twins.model.Faultless := Graph.faultless (by decide +kernel)
  have hkeeps := (session_keeps_place.2.2 twins.model 0 [] hm rfl).1 (fun _ => "") ["1", "b", "q"]
  have hnone : ∀ line ∈ ([] : List String), Command.ofLine line ≠ .quit := fun line hline => absurd hline List.not_mem_nil
  obtain ⟨path, hshows, -⟩ := hkeeps.rounds [] ["1", "b", "q"] rfl hnone
  have hpath : path = ⟨0, []⟩ := by
    obtain ⟨-, -, -, hreplay, -⟩ := hshows
    have hroot : Path.replay twins.model [twins.model.fingerprint 0] = .ok (some ⟨0, []⟩) := by decide +kernel
    cases hroot.symm.trans hreplay
    rfl
  subst hpath
  have hedges : Explorer.edges twins.model 0 =
      .ok [⟨0, twins.model.fingerprint 1, 1⟩, ⟨1, twins.model.fingerprint 2, 2⟩] := by decide +kernel
  refine ⟨hkeeps, by decide +kernel, by decide +kernel, ?_⟩
  exact (hkeeps.back [] "1" ["q"] 1 ⟨0, []⟩ _ _ rfl hnone (by decide +kernel) hshows hedges rfl).2

end Console

end StateSpace
