import Kahip.QueueKeys

/-!
# What a round returns, and where it leaves its counters

`single_kway_refinement_round_internal` never computes a cut. It starts `cut`
at `std::numeric_limits<int>::max() / 2`, lowers it by the gain of every move
`local_move_node` makes, and keeps in `best_cut` and `min_cut_index` the
lowest value and the position of the move that reached it; at the end
`unroll_moves` takes back, on the thread's counters only, every move after
`min_cut_index`, and the round returns `initial_cut - best_cut`.

`RoundInv` says where this stands after every step of the thread, whatever
the other threads claim meanwhile. The thread's labels and counters are those
its moves leave from the view it began with (`replay`); each move was made
from the labels and counters the moves before it left, as `local_move_node`
makes it (`Made`); `cut` is the starting value less the gains logged, and
`best_cut` is reached by a prefix of the round's moves and undercut by none
(`Round.Tracks`). So a finished round returns the total gain of the prefix of
its moves that it keeps, no prefix of its moves has a larger total, and its
counters end where that prefix leaves them; for an exact `compute_gain` the
return is the drop of the edge cut of the thread's view. At every step each
block's counter either stays below `upper_bound_partition` or has not grown,
and no block's last node has been taken.
-/

namespace Kahip

/-! ## Moves replayed on a view -/

/-- The thread's view of the partition: its labels (`get_local_partition`)
and its counters `parts_sizes` and `parts_weights`. -/
def Explorer.view (X : ExploreCtx) (t : Explorer) : Blocks := ⟨t.localPart X, t.sizes, t.weights⟩

/-- The labels and counters the moves `ms` leave from `b`, made one after the
other. -/
def replay (G : Graph) (b : Blocks) (ms : List LogEntry) : Blocks :=
  ms.foldl (fun b m => b.move G m.node m.fromPart m.toPart) b

/-- The total of the gains logged with the moves `ms`. -/
def gainSum (ms : List LogEntry) : Int := (ms.map (·.gain)).sum

section Replay

variable {G : Graph} {b : Blocks} {ms : List LogEntry} {m : LogEntry}

@[simp] theorem replay_nil (G : Graph) (b : Blocks) : replay G b [] = b := rfl

@[simp] theorem replay_cons : replay G b (m :: ms) = replay G (b.move G m.node m.fromPart m.toPart) ms := rfl

theorem replay_append (ms' : List LogEntry) : replay G b (ms ++ ms') = replay G (replay G b ms) ms' :=
  List.foldl_append _ _ _ _

@[simp] theorem gainSum_nil : gainSum [] = 0 := rfl

@[simp] theorem gainSum_cons : gainSum (m :: ms) = m.gain + gainSum ms := List.sum_cons

@[simp] theorem gainSum_append (ms' : List LogEntry) : gainSum (ms ++ ms') = gainSum ms + gainSum ms' := by
  simp [gainSum]

end Replay

/-! ## The writes of the round, as moves -/

/-- The counter writes of `local_move_node` (target first) are those of a
move. -/
theorem update_update_shift (f : Nat → Int) (src dst : Nat) (w : Int) (x : Nat) :
    Function.update (Function.update f dst (f dst + w)) src (Function.update f dst (f dst + w) src - w) x =
      f x - (if x = src then w else 0) + (if x = dst then w else 0) := by
  simp only [Function.update_apply]
  split_ifs <;> subst_vars <;> omega

/-- A successful `local_move_node` moves the thread's view. -/
theorem Explorer.view_move {X : ExploreCtx} {t t' : Explorer} {node src dst : Nat}
    (hlp : t'.lp = Function.update t.lp node (some dst))
    (hw : t'.weights = Function.update (Function.update t.weights dst (t.weights dst + X.G.nodeWeight node)) src
      (Function.update t.weights dst (t.weights dst + X.G.nodeWeight node) src - X.G.nodeWeight node))
    (hs : t'.sizes = Function.update (Function.update t.sizes dst (t.sizes dst + 1)) src
      (Function.update t.sizes dst (t.sizes dst + 1) src - 1)) :
    t'.view X = (t.view X).move X.G node src dst := by
  ext x
  · by_cases hx : x = node <;> simp [Explorer.view, Explorer.localPart, hlp, hx]
  · rw [Blocks.move_blockNoNodes]; simp only [Explorer.view, hs, update_update_shift]
  · rw [Blocks.move_blockWeight]; simp only [Explorer.view, hw, update_update_shift]

/-- `unroll_moves` with `min_cut_index = -1` takes back every move of `ms`,
last first, on the counters: after a replay of `ms` it restores them. -/
theorem unrollMoves_replay (X : ExploreCtx) (b : Blocks) (ms : List LogEntry) :
    unrollMoves X ms (-1) ((replay X.G b ms).blockWeight, (replay X.G b ms).blockNoNodes) =
      (b.blockWeight, b.blockNoNodes) := by
  induction ms using List.reverseRecOn with
  | nil => rfl
  | append_singleton ms m ih =>
    rw [← ih]
    obtain ⟨⟨node, src, dst⟩, g⟩ := m
    simp only [unrollMoves, List.drop_zero, replay_append, replay_cons, replay_nil, List.reverse_append,
      List.reverse_singleton, List.singleton_append, List.foldl_cons, show (-1 + 1 : Int).toNat = 0 from rfl]
    congr 2 <;> funext x
    · simp only [Function.update_apply, Blocks.move_blockWeight]; split_ifs <;> subst_vars <;> omega
    · simp only [Function.update_apply, Blocks.move_blockNoNodes]; split_ifs <;> subst_vars <;> omega

/-- At the end of a round whose moves `ms` were logged after `L0`,
`unroll_moves` leaves the counters where the first `k` of them left them. -/
theorem unrollMoves_kept (X : ExploreCtx) (b : Blocks) (L0 ms : List LogEntry) (k : Nat) :
    unrollMoves X (L0 ++ ms) ((L0.length + k : Nat) - 1 : Int)
        ((replay X.G b ms).blockWeight, (replay X.G b ms).blockNoNodes) =
      ((replay X.G b (ms.take k)).blockWeight, (replay X.G b (ms.take k)).blockNoNodes) := by
  have hk : (((L0.length + k : Nat) : Int) - 1 + 1).toNat = L0.length + k := by omega
  have hdrop : (L0 ++ ms).drop (L0.length + k) = ms.drop k := by
    rw [List.drop_append_eq_append_drop, List.drop_eq_nil_of_le (by omega), Nat.add_sub_cancel_left,
      List.nil_append]
  rw [← unrollMoves_replay X (replay X.G b (ms.take k)) (ms.drop k), ← replay_append, List.take_append_drop]
  simp only [unrollMoves, hk, hdrop, List.drop_zero, show (-1 + 1 : Int).toNat = 0 from rfl]

/-! ## Moves as `local_move_node` makes them -/

/-- One move made from the labels and counters `b`: out of the node's block,
to the block `compute_gain` proposed there, with the gain it reported, into a
block that stays below `upper_bound_partition`, and not out of a block of one
node. -/
structure MoveOk (X : ExploreCtx) (b : Blocks) (m : LogEntry) : Prop where
  src : b.part m.node = m.fromPart
  gain : (X.gain b.part m.node m.fromPart).gain = m.gain
  dst : (X.gain b.part m.node m.fromPart).maxGainer = some m.toPart
  room : b.blockWeight m.toPart + X.G.nodeWeight m.node < X.upperBound
  notLast : b.blockNoNodes m.fromPart ≠ 1

/-- Each move of `ms` was made from what the moves before it left. -/
def Made (X : ExploreCtx) : Blocks → List LogEntry → Prop
  | _, [] => True
  | b, m :: ms => MoveOk X b m ∧ Made X (b.move X.G m.node m.fromPart m.toPart) ms

section Made

variable {X : ExploreCtx} {b : Blocks} {ms : List LogEntry}

@[simp] theorem made_nil (X : ExploreCtx) (b : Blocks) : Made X b [] := trivial

theorem made_append (ms' : List LogEntry) : Made X b (ms ++ ms') ↔ Made X b ms ∧ Made X (replay X.G b ms) ms' := by
  induction ms generalizing b with
  | nil => simp
  | cons m ms ih => simp only [List.cons_append, List.append_eq, Made, ih, replay_cons, and_assoc]

theorem Made.snoc (h : Made X b ms) {m : LogEntry} (hm : MoveOk X (replay X.G b ms) m) : Made X b (ms ++ [m]) :=
  (made_append _).2 ⟨h, hm, trivial⟩

theorem Made.take (h : Made X b ms) (k : Nat) : Made X b (ms.take k) :=
  ((made_append (ms.drop k)).1 (by rwa [List.take_append_drop])).1

/-- A move into a block keeps it below the bound, a move out of a block does
not take its last node: so every block's weight either stays below the bound
or does not grow, and a block with a node keeps one. -/
theorem Made.bounds (h : Made X b ms) (x : Nat) :
    ((replay X.G b ms).blockWeight x < X.upperBound ∨ (replay X.G b ms).blockWeight x ≤ b.blockWeight x) ∧
      (1 ≤ b.blockNoNodes x → 1 ≤ (replay X.G b ms).blockNoNodes x) := by
  induction ms generalizing b with
  | nil => simp
  | cons m ms ih =>
    obtain ⟨hm, hr⟩ := h
    obtain ⟨ih1, ih2⟩ := ih hr
    have hw := hm.room
    have hn := hm.notLast
    simp only [replay_cons, Blocks.move_blockWeight, Blocks.move_blockNoNodes] at ih1 ih2 ⊢
    refine ⟨?_, fun h1 => ih2 ?_⟩ <;> split_ifs at * <;> subst_vars <;> omega

/-- For an exact `compute_gain`, the gains of moves made one after the other
add up to the drop of the edge cut. -/
theorem Made.gainSum_eq (hx : ExactGains X.G fun p v => X.gain p v (p v)) (h : Made X b ms) :
    gainSum ms = X.G.edgeCut b.part - X.G.edgeCut (replay X.G b ms).part := by
  induction ms generalizing b with
  | nil => simp
  | cons m ms ih =>
    obtain ⟨hm, hr⟩ := h
    have hdst : (X.gain b.part m.node (b.part m.node)).maxGainer = some m.toPart := by rw [hm.src]; exact hm.dst
    have hcut : X.G.edgeCut b.part - X.G.edgeCut (Function.update b.part m.node m.toPart) = m.gain :=
      (hx _ _ _ hdst).trans (by dsimp only; rw [hm.src, hm.gain])
    rw [gainSum_cons, ih hr, replay_cons, Blocks.move_part, ← hcut]
    ring

end Made

/-! ## The round's own variables -/

theorem gainSum_take_snoc (ms : List LogEntry) (m : LogEntry) (j : Nat) :
    gainSum ((ms ++ [m]).take j) = gainSum (ms.take j) + if ms.length < j then m.gain else 0 := by
  rw [List.take_append_eq_append_take, gainSum_append]
  by_cases hj : ms.length < j
  · rw [if_pos hj, show j - ms.length = (j - ms.length - 1) + 1 by omega]; simp
  · rw [if_neg hj, show j - ms.length = 0 by omega]; simp

/-- `cut`, `number_of_swaps`, `best_cut` and `min_cut_index` after the moves
`ms` that the round logged from position `pm` on: `cut` is the starting
value less their gains, the first `k` of them bring it to `best_cut`, which
`min_cut_index` points at, and no prefix of them brings it lower. -/
structure Round.Tracks (r : Round) (pm : Nat) (ms : List LogEntry) : Prop where
  previouslyMoved : r.previouslyMoved = pm
  swaps : r.swaps = ms.length
  cut : r.cut = notionalCut - gainSum ms
  kept : ∃ k ≤ ms.length, r.minCutIndex = ((pm + k : Nat) : Int) - 1 ∧ r.bestCut = notionalCut - gainSum (ms.take k)
  best : ∀ j ≤ ms.length, gainSum (ms.take j) ≤ notionalCut - r.bestCut

theorem Round.tracks_start (pm maxSwaps : Nat) :
    Round.Tracks ⟨notionalCut, notionalCut, 0, 0, (pm : Int) - 1, pm, maxSwaps⟩ pm [] :=
  ⟨rfl, rfl, by simp, ⟨0, le_rfl, by simp, by simp⟩, fun j _ => by simp⟩

/-- Logging a move: `cut` drops by its gain, and `best_cut` and
`min_cut_index` follow it when the new cut is lower, or equal and accepted. -/
theorem Round.Tracks.log {r : Round} {pm : Nat} {ms : List LogEntry} (h : r.Tracks pm ms) (m : LogEntry)
    (better : Bool) (hbt : better = true → r.cut - m.gain ≤ r.bestCut)
    (hbf : better = false → r.bestCut ≤ r.cut - m.gain) :
    Round.Tracks { r with cut := r.cut - m.gain
                          minCutIndex := if better then r.previouslyMoved + r.swaps else r.minCutIndex
                          bestCut := if better then r.cut - m.gain else r.bestCut
                          swaps := r.swaps + 1, movements := r.movements + 1 } pm (ms ++ [m]) := by
  obtain ⟨hpm, hsw, hcut, ⟨k, hk, hmci, hbest⟩, hopt⟩ := h
  have hall : gainSum ((ms ++ [m]).take (ms.length + 1)) = gainSum ms + m.gain := by
    rw [gainSum_take_snoc, List.take_of_length_le (by omega), if_pos (by omega)]
  refine ⟨hpm, by simp [hsw], by simp [hcut]; ring, ?_, fun j hj => ?_⟩
  · cases better with
    | true => exact ⟨ms.length + 1, by simp, by simp [hpm, hsw]; ring, by simp only [if_true, hall, hcut]; ring⟩
    | false =>
      refine ⟨k, by simp; omega, hmci, ?_⟩
      rw [if_neg (by simp), hbest, List.take_append_of_le_length hk]
  · rw [List.length_append, List.length_singleton] at hj
    rw [gainSum_take_snoc]
    by_cases hjl : ms.length < j
    · rw [if_pos hjl, List.take_of_length_le (by omega)]
      cases better
      · have := hbf rfl; simp only [Bool.false_eq_true, if_false]; omega
      · simp only [if_true]; omega
    · rw [if_neg hjl, add_zero]
      have := hopt j (by omega)
      cases better
      · simpa using this
      · have := hbt rfl; simp only [if_true]; omega

/-- A failed move counts a movement and nothing else. -/
theorem Round.Tracks.movement {r : Round} {pm : Nat} {ms : List LogEntry} (h : r.Tracks pm ms) :
    Round.Tracks { r with movements := r.movements + 1 } pm ms :=
  ⟨h.1, h.2, h.3, h.4, h.5⟩

/-! ## Where a round stands -/

/-- Inside the main loop: the moves logged in this round, then the move
`pend` made and not yet logged, were made from `b0`; the thread's view is
what they left; and the round's variables track the logged ones. -/
def Running (X : ExploreCtx) (b0 : Blocks) (L0 : List LogEntry) (t : Explorer) (r : Round)
    (pend : List LogEntry) : Prop :=
  ∃ ms, t.log = L0 ++ ms ∧ Made X b0 (ms ++ pend) ∧ t.view X = replay X.G b0 (ms ++ pend) ∧
    r.Tracks L0.length ms

/-- A finished round logged moves `ms` made from `b0`, then its sentinel; it
returned `g`, the total gain of the prefix that ends at `min_cut_index`, and
no prefix has a larger total; its counters are where that prefix left them,
and `min_cut_index` points into the round's moves. -/
def Finished (X : ExploreCtx) (b0 : Blocks) (L0 : List LogEntry) (t : Explorer) (g mci : Int) : Prop :=
  ∃ ms, t.log = L0 ++ ms ++ [X.sentinelEntry] ∧ Made X b0 ms ∧
    g = gainSum (ms.take ((mci + 1).toNat - L0.length)) ∧ (∀ j ≤ ms.length, gainSum (ms.take j) ≤ g) ∧
    t.weights = (replay X.G b0 (ms.take ((mci + 1).toNat - L0.length))).blockWeight ∧
    t.sizes = (replay X.G b0 (ms.take ((mci + 1).toNat - L0.length))).blockNoNodes ∧
    (mci + 1).toNat - L0.length ≤ ms.length

/-- Where a round begun with the view `b0` after the log `L0` stands. -/
def RoundInv (X : ExploreCtx) (b0 : Blocks) (L0 : List LogEntry) (t : Explorer) : Prop :=
  match t.pc with
  | .initQueue _ => t.log = L0 ∧ t.view X = b0
  | .loop r => Running X b0 L0 t r []
  | .scan r m _ => Running X b0 L0 t r [m]
  | .claim r m _ _ _ => Running X b0 L0 t r [m]
  | .done (g, mci, _) => Finished X b0 L0 t g mci

section Inv

variable {X : ExploreCtx} {b0 : Blocks} {L0 : List LogEntry} {t t' : Explorer} {r : Round}
  {pend : List LogEntry}

/-- A step that keeps the log and the view keeps the round where it was. -/
theorem Running.of_eq (h : Running X b0 L0 t r pend) (hlog : t'.log = t.log) (hv : t'.view X = t.view X) :
    Running X b0 L0 t' r pend := by
  obtain ⟨ms, h1, h2, h3, h4⟩ := h
  exact ⟨ms, hlog ▸ h1, h2, hv ▸ h3, h4⟩

/-- The end of the main loop: `unroll_moves` and the result. -/
theorem Running.finish (h : Running X b0 L0 t r []) : RoundInv X b0 L0 (finishRound X t r) := by
  obtain ⟨ms, hlog, hmade, hview, htr⟩ := h
  obtain ⟨k, hkl, hmci, hbest⟩ := htr.kept
  rw [List.append_nil] at hmade hview
  have hk : (r.minCutIndex + 1).toNat - L0.length = k := by omega
  have hws : (t.weights, t.sizes) = ((replay X.G b0 ms).blockWeight, (replay X.G b0 ms).blockNoNodes) := by
    rw [← hview]; rfl
  have hun := unrollMoves_kept X b0 L0 ms k
  rw [← hmci, ← hws, ← hlog] at hun
  show Finished X b0 L0 (finishRound X t r) (notionalCut - r.bestCut) r.minCutIndex
  refine ⟨ms, by simp [finishRound, hlog], hmade, by rw [hk, hbest]; ring, fun j hj => ?_, ?_, ?_, hk ▸ hkl⟩
  · have := htr.best j hj; omega
  · simp only [finishRound, hk, hun]
  · simp only [finishRound, hk, hun]

/-- Every step of the thread keeps the round where the invariant says. -/
theorem RoundInv.step {idx idx' : Nat → Bool} {fin : Nat} {ev : Option Event} (hi : RoundInv X b0 L0 t)
    (h : exploreStep X idx fin t = .ok (idx', t', ev)) : RoundInv X b0 L0 t' := by
  unfold exploreStep at h
  split at h
  · -- the seeding loop is over
    rename_i hpc
    rw [RoundInv, hpc] at hi
    obtain ⟨hlog, hv⟩ := hi
    split at h <;> cases h
    · -- no start node was claimed: the round returns at once
      refine ⟨[], by simp [hlog], trivial, by simp, by simp, ?_, ?_, by simp⟩ <;> simp [← hv, Explorer.view]
    · exact ⟨[], by simp [hlog], trivial, by simpa using hv, by rw [hlog]; exact Round.tracks_start _ _⟩
  · -- a start node
    rename_i v rest hpc
    rw [RoundInv, hpc] at hi
    split at h <;> cases h <;> exact hi
  · -- the top of the main loop
    rename_i r hpc
    rw [RoundInv, hpc] at hi
    by_cases hgo : ¬r.movements < r.maxSwaps ∨ t.queue.isEmpty = true ∨ 0 < fin
    · rw [if_pos hgo] at h; cases h; exact hi.finish
    rw [if_neg hgo] at h
    simp only [Oracle.stop, Oracle.pick] at h
    by_cases hs : t.oracle.stops 0 = true
    · rw [if_pos hs] at h; cases h; exact Running.finish (hi.of_eq rfl rfl)
    rw [if_neg hs] at h
    rcases hdm : t.queue.deleteMax (t.oracle.picks 0) with ⟨node, queue⟩
    simp only [hdm] at h
    split at h
    · cases h
    rename_i hgain
    split at h
    · cases h
    rename_i dst hdst
    obtain ⟨ms, hlog, hmade, hview, htr⟩ := hi
    split at h
    · cases h; exact ⟨ms, hlog, hmade, hview, htr.movement⟩
    rename_i hone
    split at h <;> cases h
    · exact ⟨ms, hlog, hmade, hview, htr.movement⟩
    · rename_i hroom
      rw [List.append_nil] at hmade hview
      have hmv : MoveOk X (replay X.G b0 ms) ⟨⟨node, t.localPart X node, dst⟩, t.queue.maxValue⟩ := by
        rw [← hview]
        exact ⟨rfl, not_not.1 hgain, hdst, not_le.1 hroom, hone⟩
      refine ⟨ms, hlog, hmade.snoc hmv, ?_, htr⟩
      rw [replay_append, replay_cons, replay_nil, ← hview]
      exact Explorer.view_move rfl (by rw [hdm]) (by rw [hdm])
  · -- the neighbour loop is over: log the move
    rename_i r m hpc
    rw [RoundInv, hpc] at hi
    obtain ⟨ms, hlog, hmade, hview, htr⟩ := hi
    have hlog' : t.log ++ [m] = L0 ++ (ms ++ [m]) := by simp [hlog]
    rw [← List.append_nil (ms ++ [m])] at hmade hview
    simp only [Oracle.bit] at h
    split at h <;> split at h <;> cases h
    · -- a new best cut
      rename_i hb _
      simp only [Bool.or_eq_true, decide_eq_true_eq, Bool.and_eq_true] at hb
      exact ⟨ms ++ [m], hlog', hmade, hview, htr.log m true (fun _ => by rcases hb with hb | ⟨hb, -⟩ <;> omega)
        (by simp)⟩
    · rename_i hb _
      simp only [Bool.or_eq_true, decide_eq_true_eq, Bool.and_eq_true, not_or] at hb
      exact ⟨ms ++ [m], hlog', hmade, hview, htr.log m false (by simp) (fun _ => by omega)⟩
  · -- a neighbour: refresh its key, or see whether to claim it
    rename_i r m v rest hpc
    rw [RoundInv, hpc] at hi
    dsimp only at h
    split at h
    · cases h; exact hi.of_eq rfl rfl
    split at h
    · cases h; exact hi.of_eq rfl rfl
    split at h <;> cases h <;> exact hi.of_eq rfl rfl
  · -- the compare_exchange on a neighbour
    rename_i r m v gain rest hpc
    rw [RoundInv, hpc] at hi
    split at h <;> cases h <;> exact hi.of_eq rfl rfl
  · -- a finished round
    cases h; exact hi

theorem RoundInv.run (hi : RoundInv X b0 L0 t) (hr : Relation.ReflTransGen (ThreadStep X) t t') :
    RoundInv X b0 L0 t' := by
  induction hr with
  | refl => exact hi
  | tail _ hs ih =>
    obtain ⟨_, _, _, _, h⟩ := hs
    exact ih.step h

/-- A round begins where its thread stands. -/
theorem RoundInv.begin (t : Explorer) (starts : List Nat) : RoundInv X (t.view X) t.log (t.beginRound starts) :=
  ⟨rfl, rfl⟩

/-- A finished round is `Finished`. -/
theorem RoundInv.finished (hr : Relation.ReflTransGen (ThreadStep X) (t.beginRound starts) t') {g mci : Int}
    {mv : Nat} (hpc : t'.pc = .done (g, mci, mv)) : Finished X (t.view X) t.log t' g mci := by
  have hi := (RoundInv.begin t starts).run hr
  rwa [RoundInv, hpc] at hi

/-- At every step of the round the counters are what moves made from the
round's view leave. -/
theorem RoundInv.counters (hi : RoundInv X b0 L0 t) :
    ∃ ms, Made X b0 ms ∧ t.weights = (replay X.G b0 ms).blockWeight ∧
      t.sizes = (replay X.G b0 ms).blockNoNodes := by
  unfold RoundInv at hi
  split at hi
  · obtain ⟨-, hv⟩ := hi
    exact ⟨[], trivial, by rw [replay_nil, ← hv]; rfl, by rw [replay_nil, ← hv]; rfl⟩
  all_goals first
    | obtain ⟨ms, -, hmade, hv, -⟩ := hi
      exact ⟨_, hmade, by rw [← hv]; rfl, by rw [← hv]; rfl⟩
    | obtain ⟨ms, -, hmade, -, -, hw, hs, -⟩ := hi
      exact ⟨_, hmade.take _, hw, hs⟩

end Inv

/-! ## What a finished round returns -/

/-- The round of `round_shadow_forgets_kept_move`, step by step: node `1`
moves to block `1`, its neighbour `2` has nothing left to gain, the move is
logged as a new best cut, and the empty queue ends the round. -/
theorem bridge_round_finishes :
    ∃ t', Relation.ReflTransGen (ThreadStep bridgeCtx) (idleThread.beginRound [1]) t' ∧ t'.pc = .done (1, 0, 1) :=
  ⟨_, .head ⟨fun _ => false, 0, _, _, rfl⟩ <| .head ⟨fun _ => false, 0, _, _, rfl⟩ <|
    .head ⟨fun _ => false, 0, _, _, rfl⟩ <| .head ⟨fun _ => false, 0, _, _, rfl⟩ <|
    .head ⟨fun _ => false, 0, _, _, rfl⟩ <| .head ⟨fun _ => false, 0, _, _, rfl⟩ .refl, rfl⟩

/-- `connGain` is exact on `bridge`, for every labelling. -/
theorem bridge_exactGains : ExactGains bridge fun p v => connGain bridge p v (p v) := by
  have hcut : ∀ q : Nat → Nat, bridge.edgeCut q = if q 1 = q 2 then 0 else 1 := by
    intro q
    simp only [Graph.edgeCut, Graph.arcSum, Finset.sum_range_succ, bridge]
    by_cases h : q 1 = q 2 <;> simp [h, eq_comm]
  intro p v d h
  simp only [hcut]
  by_cases h1 : v = 1
  · subst h1
    by_cases h12 : p 2 = p 1
    · simp [connGain, bridge, h12] at h
    · obtain rfl : p 2 = d := by simpa [connGain, bridge, h12] using h
      simp [connGain, bridge, h12, Ne.symm h12, Function.update_apply]
  by_cases h2 : v = 2
  · subst h2
    by_cases h12 : p 1 = p 2
    · simp [connGain, bridge, h12] at h
    · obtain rfl : p 1 = d := by simpa [connGain, bridge, h12] using h
      simp [connGain, bridge, h12, Ne.symm h12, Function.update_apply]
  · simp [connGain, bridge, h1, h2] at h

/-- `max_number_of_swaps`: `config.max_number_of_moves`, or the number of
nodes when it is `-1`. -/
def ExploreCtx.maxSwaps (X : ExploreCtx) : Nat :=
  if X.maxNumberOfMoves ≠ -1 then X.maxNumberOfMoves.toNat else X.G.n

/-- A bound on the steps left in a round when no node has more than `D`
out-edges: the start nodes left, then `2 D + 4` steps for each movement the
loop may still make, less what the current movement has used. -/
def Explorer.rank (X : ExploreCtx) (D : Nat) (t : Explorer) : Nat :=
  match t.pc with
  | .initQueue rest => rest.length + 2 + X.maxSwaps * (2 * D + 4)
  | .loop r => (r.maxSwaps - r.movements) * (2 * D + 4) + 1
  | .scan r _ targets => (r.maxSwaps - (r.movements + 1)) * (2 * D + 4) + 2 * targets.length + 2
  | .claim r _ _ _ rest => (r.maxSwaps - (r.movements + 1)) * (2 * D + 4) + 2 * rest.length + 3
  | .done _ => 0

theorem sub_succ_mul_lt {a b c K : Nat} (hab : b < a) (hc : c ≤ K) : (a - (b + 1)) * K + c < (a - b) * K + 1 := by
  rw [show a - b = a - (b + 1) + 1 by omega, Nat.succ_mul]
  omega

section Ends

variable {X : ExploreCtx} {D : Nat} {t t' : Explorer} {b0 : Blocks} {L0 : List LogEntry}

/-- Every step of a running round lowers its rank: the loop's movement
counter grows at every pop, and a move's neighbour loop is at most `D`
long. -/
theorem exploreStep_rank (hD : ∀ v, (X.G.adj v).length ≤ D) {idx idx' : Nat → Bool} {fin : Nat}
    {ev : Option Event} (h : exploreStep X idx fin t = .ok (idx', t', ev)) (ha : t.pc.active) :
    t'.rank X D < t.rank X D := by
  unfold exploreStep at h
  split at h
  · rename_i hpc
    split at h <;> cases h <;> simp only [Explorer.rank, hpc, ExploreCtx.maxSwaps, Nat.sub_zero] <;> omega
  · rename_i v rest hpc
    split at h <;> cases h <;> simp only [Explorer.rank, hpc, List.length_cons] <;> omega
  · rename_i r hpc
    have hfin : ∀ t0 : Explorer, (finishRound X t0 r).rank X D < t.rank X D := fun _ => by
      simp only [Explorer.rank, finishRound, hpc]; omega
    by_cases hgo : ¬r.movements < r.maxSwaps ∨ t.queue.isEmpty = true ∨ 0 < fin
    · rw [if_pos hgo] at h; cases h; exact hfin t
    rw [if_neg hgo] at h
    have hlt : r.movements < r.maxSwaps := by omega
    simp only [Oracle.stop, Oracle.pick] at h
    by_cases hs : t.oracle.stops 0 = true
    · rw [if_pos hs] at h; cases h; exact hfin _
    rw [if_neg hs] at h
    rcases hdm : t.queue.deleteMax (t.oracle.picks 0) with ⟨node, queue⟩
    simp only [hdm] at h
    split at h
    · cases h
    split at h
    · cases h
    split at h
    · cases h; simp only [Explorer.rank, hpc]; exact sub_succ_mul_lt hlt (by omega)
    split at h <;> cases h
    · simp only [Explorer.rank, hpc]; exact sub_succ_mul_lt hlt (by omega)
    · simp only [Explorer.rank, hpc, List.length_map]
      have := sub_succ_mul_lt (c := 2 * (X.G.adj node).length + 2) (K := 2 * D + 4) hlt (by have := hD node; omega)
      omega
  · rename_i r m hpc
    simp only [Oracle.bit] at h
    split at h <;> split at h <;> cases h <;> simp only [Explorer.rank, hpc, List.length_nil] <;> omega
  · rename_i r m v rest hpc
    dsimp only at h
    split at h
    · cases h; simp only [Explorer.rank, hpc, List.length_cons]; omega
    split at h
    · cases h; simp only [Explorer.rank, hpc, List.length_cons]; omega
    split at h <;> cases h <;> simp only [Explorer.rank, hpc, List.length_cons] <;> omega
  · rename_i r m v gain rest hpc
    split at h <;> cases h <;> simp only [Explorer.rank, hpc] <;> omega
  · rename_i res hpc
    simp [hpc, Pc.active] at ha

/-- Where the queue's keys are exact and the round is tracked, no step
fails an assertion: the pop passes those of `local_move_node`, and
`min_cut_index` stays below the length of the log. -/
theorem exploreStep_ok (hl : GainLaws X) (hk : KeyInv X t) (hr : RoundInv X b0 L0 t) (idx : Nat → Bool)
    (fin : Nat) : ∃ res, exploreStep X idx fin t = .ok res := by
  rcases hpc : t.pc with rest | r | r | r | res
  · cases rest <;> unfold exploreStep <;> simp only [hpc] <;> split_ifs <;> exact ⟨_, rfl⟩
  · rw [KeyInv, hpc] at hk
    exact exploreStep_loop_ok hl hk hpc idx fin
  · rename_i m targets
    cases targets with
    | nil =>
      rw [RoundInv, hpc] at hr
      obtain ⟨ms, hlog, -, -, htr⟩ := hr
      obtain ⟨k, hk, hmci, -⟩ := htr.kept
      have hlen : t.log.length = L0.length + ms.length := by rw [hlog, List.length_append]
      have hpm := htr.previouslyMoved
      have hsw := htr.swaps
      unfold exploreStep
      simp only [hpc, Oracle.bit]
      rw [if_neg]
      · exact ⟨_, rfl⟩
      split <;> omega
    | cons v rest =>
      unfold exploreStep
      simp only [hpc]
      split_ifs <;> exact ⟨_, rfl⟩
  · unfold exploreStep; simp only [hpc]; split_ifs <;> exact ⟨_, rfl⟩
  · unfold exploreStep; simp only [hpc]; exact ⟨_, rfl⟩

/-- With fuel beyond the rank, `runRound` returns a finished round. -/
theorem runRound_returns (hl : GainLaws X) (hp : X.G.PositiveWeights) (hm : X.G.Mutual)
    (hD : ∀ v, (X.G.adj v).length ≤ D) (fin : Nat) :
    ∀ fuel idx t, KeyInv X t → RoundInv X b0 L0 t → t.rank X D < fuel →
      ∃ idx' t' res, runRound X fin fuel idx t = .ok (idx', t') ∧ t'.pc = .done res
  | 0, _, _, _, _, hf => absurd hf (Nat.not_lt_zero _)
  | fuel + 1, idx, t, hk, hr, hf => by
    rw [runRound]
    split
    · rename_i res hpc
      exact ⟨idx, t, res, rfl, hpc⟩
    rename_i hnd
    obtain ⟨⟨idx', t', ev⟩, hstep⟩ := exploreStep_ok hl hk hr idx fin
    have ha : t.pc.active := by cases hpc : t.pc <;> simp_all [Pc.active]
    rw [hstep]
    exact runRound_returns hl hp hm hD fin fuel idx' t' (hk.step hl hp hm hstep) (hr.step hstep)
      (by have := exploreStep_rank hD hstep ha; omega)

end Ends

end Kahip
