import Kahip.Unroll

/-!
# Commits that recompute gains

The gain-recomputing overload of `apply_moves` (the one `apply_moves(num_threads,
...)` calls for every thread in turn) and the `GAIN_RECALCULATION` conflict
policy `gain_recalculation` both walk a stretch of a thread's log, recompute
each node's gain on the shared labels, move what can be moved, keep the
prefix with the best running total (which starts at `0`) and undo the rest.

The gain routines themselves are not part of the sample and are parameters
(fields of `Env`). Assuming they return the exact cut reduction of the move
they propose, both routines return exactly the drop of the edge cut, and that
drop is never negative: the kept moves are a prefix whose total is the best
running total, and the undone tail is restored exactly (`Unroll`). What the
routines leave is said without their loop state: `madeMoves` is the moves a
pass makes, `LeastCutPrefix` says which prefix of them has the least cut, and
`SegmentsCommit` chains the replayed segments of a log, each keeping such a
prefix. Run for every thread in turn (`applyMovesAll`), the commits add up:
the overall gain is the drop of the cut over all of them.
-/

namespace Kahip

/-- What `compute_gain` reports for one node: the gain of its best move, the
block of that move (`none` for `INVALID_PARTITION`), and the external degree. -/
structure Gain where
  gain : Int
  maxGainer : Option Nat
  extDegree : Int
deriving Repr, DecidableEq

/-- The decisions the model leaves open, as streams: `td.rnd`'s bits, the stop
rule's verdicts, the priority queue's choices among equal keys, and what the
shared accesses to `moved_idx` return. -/
structure Oracle where
  bits : Nat → Bool
  stops : Nat → Bool
  picks : Nat → Nat
  claims : Nat → Bool

namespace Oracle

/-- `td.rnd.bit()`. -/
def bit (o : Oracle) : Bool × Oracle := (o.bits 0, { o with bits := fun i => o.bits (i + 1) })

/-- `stopping_rule->search_should_stop(...)`. -/
def stop (o : Oracle) : Bool × Oracle := (o.stops 0, { o with stops := fun i => o.stops (i + 1) })

/-- The priority queue's choice among its maximal entries. -/
def pick (o : Oracle) : Nat × Oracle := (o.picks 0, { o with picks := fun i => o.picks (i + 1) })

/-- The value a `compare_exchange` or `load` of `moved_idx` returns. -/
def claim (o : Oracle) : Bool × Oracle := (o.claims 0, { o with claims := fun i => o.claims (i + 1) })

end Oracle

/-- The apply phase's configuration and the routines it calls whose bodies
are not part of the sample: `commons->compute_gain(G, node, to, ext_degree)`
and `td.compute_gain_actual(node, from, to, expected_to)`, both on the shared
labels. -/
structure Env (β : Type) extends Ctx β where
  computeGain : (Nat → Nat) → Nat → Gain
  computeGainActual : (Nat → Nat) → Nat → Nat → Int × Option Nat

/-- The thread id `std::numeric_limits<uint32_t>::max()` that marks a node as
moved for every thread. -/
def allThreads : Nat := 4294967295

/-- What the apply phase writes besides shared state: `moved_nodes` (node to
owner thread and block before the move), `touched_blocks` and
`reactivated_vertices`. -/
structure Commit (β : Type) where
  sh : Shared β
  movedNodes : Nat → Option (Nat × Nat)
  touched : Nat → Bool
  reactivated : List Nat

/-- `touched_blocks[from] = from; touched_blocks[to] = to`. -/
def touch (t : Nat → Bool) (src dst : Nat) : Nat → Bool :=
  fun x => x = src || x = dst || t x

variable {β : Type} (e : Env β)

/-! ## `gain_recalculation` -/

/-- The loop state of `gain_recalculation`: the shared state, the oracle,
`total_gain`, `best_total_gain`, `best_gain_index`, `num_moves`, and the
three vectors `transpositions`, `from_partitions`, `to_partitions`, newest
first. -/
structure RecalcState (β : Type) where
  sh : Shared β
  oracle : Oracle
  total : Int
  best : Int
  bestIndex : Int
  numMoves : Nat
  moves : List Move

/-- One pass of the loop of `gain_recalculation` over the log entries
`index`, `index + 1`, ... (`k` of them). -/
def recalcLoop (log : List LogEntry) : Nat → Nat → RecalcState β → Except Fault (RecalcState β)
  | 0, _, r => .ok r
  | k + 1, index, r => do
    let le ← entryAt log index
    let src := r.sh.blocks.part le.node
    let g := e.computeGain r.sh.blocks.part le.node
    match g.maxGainer with
    | none => recalcLoop log k (index + 1) r
    | some dst =>
      let (success, sh) ← relaxedMoveNode e.toCtx r.sh le.node src dst
      if success then
        let total := r.total + g.gain
        let (acceptEqual, oracle) := r.oracle.bit
        let better := decide (total > r.best) || (decide (total = r.best) && acceptEqual)
        recalcLoop log k (index + 1)
          { sh, oracle, total
            best := if better then total else r.best
            bestIndex := if better then r.numMoves else r.bestIndex
            numMoves := r.numMoves + 1
            moves := ⟨le.node, src, dst⟩ :: r.moves }
      else recalcLoop log k (index + 1) { r with sh }

/-- The start state of `gain_recalculation`'s loop. -/
def recalcStart (sh : Shared β) (o : Oracle) : RecalcState β :=
  { sh, oracle := o, total := 0, best := 0, bestIndex := -1, numMoves := 0, moves := [] }

/-- `moved_nodes[node] = (UINT32_MAX, from)` for the kept moves, oldest first. -/
def markMoved (movedNodes : Nat → Option (Nat × Nat)) : List Move → Nat → Option (Nat × Nat)
  | [] => movedNodes
  | m :: ms => markMoved (Function.update movedNodes m.node (some (allThreads, m.fromPart))) ms

/-- `touched_blocks[from]`, `touched_blocks[to]` for the kept moves. -/
def touchAll (t : Nat → Bool) : List Move → Nat → Bool
  | [] => t
  | m :: ms => touchAll (touch t m.fromPart m.toPart) ms

/-- `gain_recalculation(td, moved_nodes, start, end, compute_touched_partitions,
touched_blocks)`: returns `(best_total_gain, end - start)`. -/
def gainRecalculation (log : List LogEntry) (start stop : Nat) (computeTouched : Bool)
    (c : Commit β) (o : Oracle) : Except Fault ((Int × Int) × Commit β × Oracle) := do
  let r ← recalcLoop e log (stop - start) start (recalcStart c.sh o)
  let (sh, kept) ← rollBackwards e.toCtx (r.bestIndex + 1).toNat r.moves r.sh
  let kept := kept.reverse
  pure ((r.best, (stop : Int) - start),
    { c with sh
             movedNodes := markMoved c.movedNodes kept
             touched := if computeTouched then touchAll c.touched kept else c.touched },
    r.oracle)

/-! ## The gain-recomputing `apply_moves` -/

/-- What the commit reads of a thread's data: its id, its log, and
`td.min_cut_indices`, one pair per round: the round's `min_cut_index` and the
index its caller records with it (the round's sentinel). -/
structure ThreadLog where
  id : Nat
  log : List LogEntry
  minCutIndices : List (Int × Int)

/-- The loop state of the gain-recomputing `apply_moves`: shared state and
oracle, `touched_blocks`, `cut_improvement`, `total_expected_gain` and `aff`;
per segment `total_gain`, `best_total_gain` and the vectors `transpositions`,
`from_partitions`, `gains`, newest first. -/
structure RecomputeState (β : Type) where
  sh : Shared β
  oracle : Oracle
  touched : Nat → Bool
  cutImprovement : Int
  totalExpected : Int
  aff : Nat
  total : Int
  best : Int
  pending : List Applied

/-- The inner loop of the gain-recomputing `apply_moves`, over the log
entries `index`, ..., `min_cut_index` (`k` of them). -/
def recomputeLoop (log : List LogEntry) (computeTouched : Bool) :
    Nat → Nat → RecomputeState β → Except Fault (RecomputeState β)
  | 0, _, r => .ok r
  | k + 1, index, r => do
    let le ← entryAt log index
    let src := r.sh.blocks.part le.node
    let (gain, target) := e.computeGainActual r.sh.blocks.part le.node le.toPart
    let sameMove := decide (le.fromPart = src) && decide (target = some le.toPart) &&
      decide (le.gain = gain)
    let aff := if sameMove then r.aff else r.aff + 1
    match target with
    | none =>
      if 0 < aff then recomputeLoop log computeTouched k (index + 1) { r with aff }
      else .error .assertion
    | some dst =>
      let totalExpected := r.totalExpected + le.gain
      let (success, sh) ← relaxedMoveNode e.toCtx r.sh le.node src dst
      if success then
        let total := r.total + gain
        let (better, oracle) :=
          if total > r.best then (true, r.oracle)
          else if total = r.best then (r.oracle.bit.1 || sameMove, r.oracle.bit.2)
          else (false, r.oracle)
        recomputeLoop log computeTouched k (index + 1)
          { sh, oracle, totalExpected, aff, total
            touched := if computeTouched then touch r.touched src dst else r.touched
            cutImprovement := r.cutImprovement + gain
            best := if better then total else r.best
            pending := if better then [] else ⟨le.node, src, gain⟩ :: r.pending }
      else recomputeLoop log computeTouched k (index + 1) { r with sh, totalExpected, aff }

/-- The outer loop of the gain-recomputing `apply_moves`: one segment per
pair of `min_cut_indices`, skipping rounds whose `min_cut_index` is `-1`,
undoing at its end the moves made after the best prefix. -/
def recomputeSegments (log : List LogEntry) (computeTouched : Bool) :
    Nat → List (Int × Int) → RecomputeState β → Except Fault (RecomputeState β)
  | index, mcis, r =>
    if index < log.length then
      match mcis with
      | [] => .error .outOfBounds
      | (mci, next) :: rest =>
        if mci = -1 then recomputeSegments log computeTouched (next + 1).toNat rest r
        else do
          let r ← recomputeLoop e log computeTouched (mci + 1 - index).toNat index
            { r with total := 0, best := 0, pending := [] }
          let (sh, cutImprovement) ← unrollRelaxedMovesVec e.toCtx r.pending r.sh r.cutImprovement
          recomputeSegments log computeTouched (next + 1).toNat rest { r with sh, cutImprovement }
    else .ok r

/-- `apply_moves(td, compute_touched_partitions, touched_blocks)`: returns
`cut_improvement`. -/
def applyMovesRecomputing (td : ThreadLog) (computeTouched : Bool) (sh : Shared β)
    (touched : Nat → Bool) (o : Oracle) : Except Fault (Int × Shared β × (Nat → Bool) × Oracle) := do
  let r ← recomputeSegments e td.log computeTouched 0 td.minCutIndices
    { sh, oracle := o, touched, cutImprovement := 0, totalExpected := 0, aff := 0, total := 0,
      best := 0, pending := [] }
  pure (r.cutImprovement, r.sh, r.touched, r.oracle)

/-- The body of the loop of `apply_moves(num_threads, ...)`: thread `id`'s
gain-recomputing commit, with its own `td.rnd`, on the shared labels and
`touched_blocks`; its gain is added to `overall_gain`. -/
def commitThread (tds : List ThreadLog) (rnd : Nat → Oracle) (computeTouched : Bool)
    (acc : Int × Shared β × (Nat → Bool)) (id : Nat) : Except Fault (Int × Shared β × (Nat → Bool)) := do
  let td ← entryAt tds id
  let (g, sh, touched, _) ← applyMovesRecomputing e td computeTouched acc.2.1 acc.2.2 (rnd id)
  pure (acc.1 + g, sh, touched)

/-- `apply_moves(num_threads, threads_data, compute_touched_partitions,
touched_blocks, reactivated_vertices)`: the commits of threads `0`, ...,
`num_threads - 1` in that order; returns `overall_gain` and
`moved_nodes.size()` of a map that no commit is given, so `0`. -/
def applyMovesAll (tds : List ThreadLog) (rnd : Nat → Oracle) (computeTouched : Bool) (numThreads : Nat)
    (sh : Shared β) (touched : Nat → Bool) : Except Fault ((Int × Nat) × Shared β × (Nat → Bool)) := do
  let (gain, sh, touched) ← (List.range numThreads).foldlM (commitThread e tds rnd computeTouched) (0, sh, touched)
  pure ((gain, 0), sh, touched)

/-! ## The best prefix is what remains -/

/-- `compute_gain` is exact on `G`: the gain it reports is the drop of the
edge cut when the node moves to the block it proposes. -/
def ExactGains (G : Graph) (f : (Nat → Nat) → Nat → Gain) : Prop :=
  ∀ p v t, (f p v).maxGainer = some t → G.edgeCut p - G.edgeCut (Function.update p v t) = (f p v).gain

/-- `compute_gain_actual` is exact on `G`. -/
def ExactGainsActual (G : Graph) (f : (Nat → Nat) → Nat → Nat → Int × Option Nat) : Prop :=
  ∀ p v x t, (f p v x).2 = some t → G.edgeCut p - G.edgeCut (Function.update p v t) = (f p v x).1

/-- The edge cut of the shared labels. -/
def Shared.cut (G : Graph) (s : Shared β) : Int := G.edgeCut s.blocks.part

/-- The moves a pass over the log entries `index`, ..., `index + k - 1` makes
from `s`, oldest first, and where they lead: each entry's node goes from its
current block to the block `target` proposes on the current labels, if it
proposes one and `relaxed_move_node` lets it. -/
def madeMoves (target : (Nat → Nat) → LogEntry → Option Nat) (log : List LogEntry) :
    Nat → Nat → Shared β → Except Fault (List Move × Shared β)
  | 0, _, s => .ok ([], s)
  | k + 1, index, s => do
    let le ← entryAt log index
    match target s.blocks.part le with
    | none => madeMoves target log k (index + 1) s
    | some dst =>
      let (success, s') ← relaxedMoveNode e.toCtx s le.node (s.blocks.part le.node) dst
      let (ms, s'') ← madeMoves target log k (index + 1) s'
      pure (if success then ⟨le.node, s.blocks.part le.node, dst⟩ :: ms else ms, s'')

/-- The block `gain_recalculation` moves an entry's node to: `compute_gain`'s. -/
def Env.recalcTarget (p : Nat → Nat) (le : LogEntry) : Option Nat := (e.computeGain p le.node).maxGainer

/-- The block the gain-recomputing `apply_moves` moves an entry's node to:
`compute_gain_actual`'s, asked about the logged target. -/
def Env.recomputeTarget (p : Nat → Nat) (le : LogEntry) : Option Nat :=
  (e.computeGainActual p le.node le.toPart).2

/-- Keeping the first `j` of the moves `ms` made from `s` leaves the least cut
of any prefix of them, the empty one included. -/
def LeastCutPrefix (s : Shared β) (ms : List Move) (j : Nat) : Prop :=
  j ≤ ms.length ∧ ∀ i ≤ ms.length, ∀ si sj, MovedAll e.toCtx s (ms.take i) si →
    MovedAll e.toCtx s (ms.take j) sj → sj.cut e.G ≤ si.cut e.G

/-- The replayed segments of a log from `index` on, committed from `s` to
`s'`: each makes its moves from the labels the one before it left, keeps a
prefix of them of least cut, and undoes the rest. -/
inductive SegmentsCommit (log : List LogEntry) : Nat → List (Int × Int) → Shared β → Shared β → Prop
  | stop {index : Nat} {mcis : List (Int × Int)} {s : Shared β} :
      log.length ≤ index → SegmentsCommit log index mcis s s
  | skip {index : Nat} {mci next : Int} {rest : List (Int × Int)} {s s' : Shared β} :
      index < log.length → mci = -1 → SegmentsCommit log (next + 1).toNat rest s s' →
      SegmentsCommit log index ((mci, next) :: rest) s s'
  | keep {index : Nat} {mci next : Int} {rest : List (Int × Int)} {s sEnd sj s1 s' : Shared β}
      {ms : List Move} {j : Nat} :
      index < log.length → mci ≠ -1 →
      madeMoves e e.recomputeTarget log (mci + 1 - index).toNat index s = .ok (ms, sEnd) →
      LeastCutPrefix e s ms j → MovedAll e.toCtx s (ms.take j) sj → s1.blocks = sj.blocks →
      SegmentsCommit log (next + 1).toNat rest s1 s' → SegmentsCommit log index ((mci, next) :: rest) s s'

variable {e}

theorem madeMoves_none {target : (Nat → Nat) → LogEntry → Option Nat} {log : List LogEntry} {k index : Nat}
    {s : Shared β} {le : LogEntry} (he : entryAt log index = .ok le) (ht : target s.blocks.part le = none) :
    madeMoves e target log (k + 1) index s = madeMoves e target log k (index + 1) s := by
  simp only [madeMoves, he, ht, bind, Except.bind]

theorem madeMoves_some {target : (Nat → Nat) → LogEntry → Option Nat} {log : List LogEntry} {k index : Nat}
    {s s' s'' : Shared β} {le : LogEntry} {dst : Nat} {b : Bool} {ms : List Move}
    (he : entryAt log index = .ok le) (ht : target s.blocks.part le = some dst)
    (hm : relaxedMoveNode e.toCtx s le.node (s.blocks.part le.node) dst = .ok (b, s'))
    (h : madeMoves e target log k (index + 1) s' = .ok (ms, s'')) :
    madeMoves e target log (k + 1) index s =
      .ok (if b then ⟨le.node, s.blocks.part le.node, dst⟩ :: ms else ms, s'') := by
  simp only [madeMoves, he, ht, hm, h, bind, Except.bind, pure, Except.pure]

/-- A successful move lowers the cut by the gain of an exact routine. -/
theorem cut_after_move {s s' : Shared β} {node dst : Nat} {g : Int}
    (hm : relaxedMoveNode e.toCtx s node (s.blocks.part node) dst = .ok (true, s'))
    (hg : e.G.edgeCut s.blocks.part - e.G.edgeCut (Function.update s.blocks.part node dst) = g) :
    s.cut e.G - s'.cut e.G = g := by
  rw [Shared.cut, Shared.cut, (relaxedMoveNode_true hm).2.2.2, Blocks.move_part, hg]

/-- What `recalcLoop` keeps, relative to the state `s0` it started from: the
moves made so far ran from `s0`, and `best_total_gain`, which starts at `0`,
never falls; for an exact `compute_gain`, `total` is the cut they removed, and
no prefix of them removed more than `best`, which the oldest
`best_gain_index + 1` of them removed. -/
def RecalcInv (s0 : Shared β) (r : RecalcState β) : Prop :=
  MovedAll e.toCtx s0 r.moves.reverse r.sh ∧ r.numMoves = r.moves.length ∧
    -1 ≤ r.bestIndex ∧ r.bestIndex < r.numMoves ∧ 0 ≤ r.best ∧
    (ExactGains e.G e.computeGain → s0.cut e.G - r.sh.cut e.G = r.total ∧
      ∀ i ≤ r.moves.length, ∀ si, MovedAll e.toCtx s0 (r.moves.reverse.take i) si →
        s0.cut e.G - si.cut e.G ≤ r.best ∧ (i = (r.bestIndex + 1).toNat → s0.cut e.G - si.cut e.G = r.best))

theorem recalcInv_start (s0 : Shared β) (o : Oracle) :
    RecalcInv (e := e) s0 (recalcStart s0 o) := by
  refine ⟨.nil _, rfl, le_rfl, by simp [recalcStart], le_rfl, fun _ => ⟨by simp [recalcStart], ?_⟩⟩
  intro i hi si h
  obtain rfl : i = 0 := by simpa [recalcStart] using hi
  cases h
  simp [recalcStart]

/-- A prefix of the moves `ms ++ [m]` is a prefix of `ms`, or all of them. -/
theorem take_snoc_cases {α : Type} (ms : List α) (m : α) {i : Nat} (hi : i ≤ ms.length + 1) :
    (i ≤ ms.length ∧ (ms ++ [m]).take i = ms.take i) ∨ (i = ms.length + 1 ∧ (ms ++ [m]).take i = ms ++ [m]) := by
  rcases Nat.lt_or_ge i (ms.length + 1) with h | h
  · exact .inl ⟨by omega, List.take_append_of_le_length (by omega)⟩
  · exact .inr ⟨by omega, List.take_of_length_le (by simp; omega)⟩

/-- The step of `recalcLoop` that keeps a move. -/
theorem RecalcInv.push {s0 : Shared β} {r : RecalcState β} (hi : RecalcInv (e := e) s0 r)
    {m : Move} {sh : Shared β} {g : Int} {better : Bool} (o : Oracle)
    (hm : relaxedMoveNode e.toCtx r.sh m.node m.fromPart m.toPart = .ok (true, sh))
    (hg : ExactGains e.G e.computeGain → r.sh.cut e.G - sh.cut e.G = g)
    (hb : better = true → r.best ≤ r.total + g) (hnb : better = false → r.total + g ≤ r.best) :
    RecalcInv (e := e) s0
      { sh, oracle := o, total := r.total + g
        best := if better then r.total + g else r.best
        bestIndex := if better then r.numMoves else r.bestIndex
        numMoves := r.numMoves + 1
        moves := m :: r.moves } := by
  obtain ⟨hrun, hn, hi1, hi2, hb0, hcut⟩ := hi
  have hrun' : MovedAll e.toCtx s0 (r.moves.reverse ++ [m]) sh := hrun.snoc hm
  refine ⟨by rwa [List.reverse_cons], by simp [hn], ?_, ?_, ?_, fun hex => ?_⟩
  · show -1 ≤ ite _ _ _
    split_ifs <;> omega
  · show ite _ _ _ < ((r.numMoves + 1 : Nat) : Int)
    split_ifs <;> push_cast <;> omega
  · cases better
    · exact hb0
    · exact hb0.trans (hb rfl)
  obtain ⟨ht, hopt⟩ := hcut hex
  have hg := hg hex
  refine ⟨by show s0.cut e.G - sh.cut e.G = r.total + g; omega, fun i hi si hsi => ?_⟩
  rw [List.reverse_cons] at hsi
  rw [List.length_cons, ← List.length_reverse] at hi
  rcases take_snoc_cases r.moves.reverse m hi with ⟨hle, ht'⟩ | ⟨rfl, ht'⟩
  · rw [ht'] at hsi
    obtain ⟨h1, h2⟩ := hopt i (by simpa using hle) si hsi
    cases better
    · exact ⟨h1, h2⟩
    · have := hb rfl
      refine ⟨by show _ ≤ r.total + g; omega, fun hbi => ?_⟩
      simp only [List.length_reverse, if_true] at hle hbi
      omega
  · rw [ht'] at hsi
    rw [hsi.det hrun']
    cases better
    · have := hnb rfl
      refine ⟨by show _ ≤ r.best; omega, fun hbi => ?_⟩
      simp only [List.length_reverse, Bool.false_eq_true, if_false] at hbi
      omega
    · exact ⟨by show _ ≤ r.total + g; omega, fun _ => by show _ = r.total + g; omega⟩

theorem recalcLoop_inv {log : List LogEntry} {s0 : Shared β} :
    ∀ {k index : Nat} {r r' : RecalcState β}, RecalcInv (e := e) s0 r →
      recalcLoop e log k index r = .ok r' → RecalcInv (e := e) s0 r'
  | 0, _, r, r', hi, h => by cases h; exact hi
  | k + 1, index, r, r', hi, h => by
    obtain ⟨le, -, h⟩ := bind_ok_iff.1 h
    simp only at h
    split at h
    · exact recalcLoop_inv hi h
    · rename_i dst hdst
      obtain ⟨⟨success, sh⟩, hm, h⟩ := bind_ok_iff.1 h
      cases success with
      | false =>
        rw [relaxedMoveNode_false hm] at h
        exact recalcLoop_inv hi h
      | true =>
        refine recalcLoop_inv (hi.push (m := ⟨le.node, _, dst⟩) _ hm
          (fun hg => cut_after_move hm (hg _ _ _ hdst)) (fun hb => ?_) fun hb => ?_) h
        · simp only [Bool.or_eq_true, Bool.and_eq_true, decide_eq_true_eq] at hb
          omega
        · simp only [Bool.or_eq_false_iff, decide_eq_false_iff_not] at hb
          omega

/-- The moves `recalcLoop` keeps, newest first, are those of the pass. -/
theorem recalcLoop_made {log : List LogEntry} :
    ∀ {k index : Nat} {r r' : RecalcState β}, recalcLoop e log k index r = .ok r' →
      ∃ ms, madeMoves e e.recalcTarget log k index r.sh = .ok (ms, r'.sh) ∧ r'.moves = ms.reverse ++ r.moves
  | 0, _, r, r', h => by cases h; exact ⟨[], rfl, rfl⟩
  | k + 1, index, r, r', h => by
    obtain ⟨le, he, h⟩ := bind_ok_iff.1 h
    simp only at h
    split at h
    · rename_i hdst
      obtain ⟨ms, hms, hmv⟩ := recalcLoop_made h
      exact ⟨ms, (madeMoves_none he hdst).trans hms, hmv⟩
    · rename_i dst hdst
      obtain ⟨⟨success, sh⟩, hm, h⟩ := bind_ok_iff.1 h
      cases success with
      | false =>
        simp only [Bool.false_eq_true, if_false] at h
        obtain ⟨ms, hms, hmv⟩ := recalcLoop_made h
        exact ⟨ms, madeMoves_some he hdst hm hms, hmv⟩
      | true =>
        simp only [if_true] at h
        obtain ⟨ms, hms, hmv⟩ := recalcLoop_made h
        exact ⟨_, madeMoves_some he hdst hm hms, by rw [hmv]; simp⟩

theorem recalcLoop_ok {log : List LogEntry} :
    ∀ {k index : Nat} (r : RecalcState β), index + k ≤ log.length →
      ∃ r', recalcLoop e log k index r = .ok r'
  | 0, _, r, _ => ⟨r, rfl⟩
  | k + 1, index, r, hk => by
    have hlt : index < log.length := by omega
    simp only [recalcLoop, entryAt, List.getElem?_eq_getElem hlt, bind, Except.bind]
    split
    · exact recalcLoop_ok _ (by omega)
    · rename_i dst _
      obtain ⟨⟨success, sh⟩, hm⟩ := relaxedMoveNode_current (c := e.toCtx) r.sh log[index].node dst
      simp only [hm]
      cases success <;> exact recalcLoop_ok _ (by omega)

/-- `gain_recalculation` keeps the best prefix of the moves it made, and
undoes the rest: it ends where that prefix leads, and returns exactly the drop
of the cut, which no prefix exceeds, so it is never negative. -/
theorem gainRecalculation_exact (hg : ExactGains e.G e.computeGain) {log : List LogEntry}
    {start stop : Nat} {ct : Bool} {c c' : Commit β} {o o' : Oracle} {g mv : Int}
    (h : gainRecalculation e log start stop ct c o = .ok ((g, mv), c', o')) :
    c.sh.cut e.G - c'.sh.cut e.G = g ∧ 0 ≤ g ∧
      ∃ ms sEnd j sj, madeMoves e e.recalcTarget log (stop - start) start c.sh = .ok (ms, sEnd) ∧
        LeastCutPrefix e c.sh ms j ∧ MovedAll e.toCtx c.sh (ms.take j) sj ∧ c'.sh.blocks = sj.blocks := by
  obtain ⟨r, hr, h⟩ := bind_ok_iff.1 h
  obtain ⟨⟨sh, kept⟩, hrb, h⟩ := bind_ok_iff.1 h
  cases h
  obtain ⟨ms, hms, hmv⟩ := recalcLoop_made hr
  obtain ⟨hrun, hn, hi1, hi2, hb0, hcut⟩ := recalcLoop_inv (recalcInv_start c.sh o) hr
  obtain ⟨-, hopt⟩ := hcut hg
  obtain ⟨s, sm, hrb', hsm, hs⟩ := rollBackwards_restores (r.bestIndex + 1).toNat hrun rfl
  rw [hrb] at hrb'
  cases hrb'
  simp only [recalcStart, List.append_nil] at hmv
  have hj : (r.bestIndex + 1).toNat ≤ ms.length := by
    rw [hn, hmv, List.length_reverse] at hi2
    omega
  rw [hmv, ← List.take_reverse, List.reverse_reverse] at hsm
  rw [hmv, List.reverse_reverse, List.length_reverse] at hopt
  have hbest := (hopt _ hj sm hsm).2 rfl
  have hcs : sh.cut e.G = sm.cut e.G := by simp only [Shared.cut, hs]
  refine ⟨by rw [hcs]; exact hbest, hb0, ms, _, _, sm, hms, ⟨hj, fun i hi si sj hsi hsj => ?_⟩, hsm, hs⟩
  have := (hopt i hi si hsi).1
  rw [hsj.det hsm]
  omega

theorem gainRecalculation_ok {log : List LogEntry} {start stop : Nat} (hss : start ≤ stop)
    (hs : stop ≤ log.length) (ct : Bool) (c : Commit β) (o : Oracle) :
    ∃ g c' o', gainRecalculation e log start stop ct c o = .ok ((g, (stop : Int) - start), c', o') := by
  have hk : start + (stop - start) ≤ log.length := by omega
  obtain ⟨r, hr⟩ := recalcLoop_ok (e := e) (recalcStart c.sh o) hk
  obtain ⟨hrun, -⟩ := recalcLoop_inv (recalcInv_start c.sh o) hr
  obtain ⟨s, sm, hrb, -⟩ := rollBackwards_restores (r.bestIndex + 1).toNat hrun rfl
  exact ⟨_, _, _, by simp only [gainRecalculation]; rw [show _ = recalcStart c.sh o from rfl, hr]; simp [bind, Except.bind, hrb]; rfl⟩

/-- What `recomputeLoop` keeps within a segment that started in `s0` with
`cut_improvement = base`, having made the moves `done`: `cut_improvement` grew
by `total_gain`, which is `best_total_gain ≥ 0` plus the gains the vectors
hold, and the vectors hold the moves after the first `j`, newest first; for an
exact `compute_gain_actual`, `total_gain` is the cut the moves removed, and no
prefix of them removed more than `best_total_gain`, which the first `j`
removed. -/
def RecomputeInv (s0 : Shared β) (base : Int) (done : List Move) (j : Nat) (r : RecomputeState β) : Prop :=
  r.cutImprovement = base + r.total ∧ r.total = r.best + (r.pending.map (·.gain)).sum ∧ 0 ≤ r.best ∧
    j ≤ done.length ∧ MovedAll e.toCtx s0 done r.sh ∧
    r.pending.map (fun a => (a.node, a.fromPart)) = (done.drop j).reverse.map (fun m => (m.node, m.fromPart)) ∧
    (ExactGainsActual e.G e.computeGainActual → s0.cut e.G - r.sh.cut e.G = r.total ∧
      ∀ i ≤ done.length, ∀ si, MovedAll e.toCtx s0 (done.take i) si →
        s0.cut e.G - si.cut e.G ≤ r.best ∧ (i = j → s0.cut e.G - si.cut e.G = r.best))

theorem recomputeInv_start (r : RecomputeState β) :
    RecomputeInv (e := e) r.sh r.cutImprovement [] 0 { r with total := 0, best := 0, pending := [] } := by
  refine ⟨by simp, by simp, le_rfl, le_rfl, .nil _, rfl, fun _ => ⟨by simp, fun i hi si h => ?_⟩⟩
  obtain rfl : i = 0 := by simpa using hi
  cases h
  simp

/-- The step of `recomputeLoop` that keeps a move. -/
theorem RecomputeInv.push {s0 : Shared β} {base : Int} {done : List Move} {j : Nat} {r : RecomputeState β}
    (hi : RecomputeInv (e := e) s0 base done j r) {node src dst : Nat} {sh : Shared β} {g : Int}
    {better : Bool} (o : Oracle) (touched : Nat → Bool) (te : Int) (aff : Nat)
    (hm : relaxedMoveNode e.toCtx r.sh node src dst = .ok (true, sh))
    (hg : ExactGainsActual e.G e.computeGainActual → r.sh.cut e.G - sh.cut e.G = g)
    (hb : better = true → r.best ≤ r.total + g) (hnb : better = false → r.total + g ≤ r.best) :
    RecomputeInv (e := e) s0 base (done ++ [⟨node, src, dst⟩]) (if better then done.length + 1 else j)
      { sh, oracle := o, touched, totalExpected := te, aff, total := r.total + g
        cutImprovement := r.cutImprovement + g
        best := if better then r.total + g else r.best
        pending := if better then [] else ⟨node, src, g⟩ :: r.pending } := by
  obtain ⟨hci, htot, hb0, hj, hrun, hmap, hcut⟩ := hi
  have hrun' : MovedAll e.toCtx s0 (done ++ [⟨node, src, dst⟩]) sh := hrun.snoc hm
  have hopt : ExactGainsActual e.G e.computeGainActual → ∀ i ≤ done.length + 1, ∀ si,
      MovedAll e.toCtx s0 ((done ++ [(⟨node, src, dst⟩ : Move)]).take i) si →
        (i ≤ done.length ∧ s0.cut e.G - si.cut e.G ≤ r.best ∧ (i = j → s0.cut e.G - si.cut e.G = r.best)) ∨
          (i = done.length + 1 ∧ s0.cut e.G - si.cut e.G = r.total + g) := fun hex i hi si hsi => by
    obtain ⟨ht, hopt⟩ := hcut hex
    rcases take_snoc_cases done ⟨node, src, dst⟩ hi with ⟨hle, ht'⟩ | ⟨rfl, ht'⟩
    · rw [ht'] at hsi
      exact .inl ⟨hle, hopt i hle si hsi⟩
    · rw [ht'] at hsi
      rw [hsi.det hrun']
      have := hg hex
      exact .inr ⟨rfl, by omega⟩
  cases better with
  | true =>
    have := hb rfl
    refine ⟨by simp; omega, by simp, by simp; omega, by simp, hrun', by simp, fun hex => ?_⟩
    obtain ⟨ht, -⟩ := hcut hex
    have := hg hex
    refine ⟨by show s0.cut e.G - sh.cut e.G = r.total + g; omega, fun i hi si hsi => ?_⟩
    rcases hopt hex i (by simpa using hi) si hsi with ⟨hle, h1, -⟩ | ⟨rfl, h1⟩
    · exact ⟨by show _ ≤ r.total + g; omega, fun hij => by simp at hij; omega⟩
    · exact ⟨by show _ ≤ r.total + g; omega, fun _ => h1⟩
  | false =>
    have := hnb rfl
    refine ⟨by simp; omega, by simp; omega, by simpa using hb0, by simp; omega, hrun', ?_, fun hex => ?_⟩
    · simp [List.drop_append_of_le_length hj, hmap]
    obtain ⟨ht, -⟩ := hcut hex
    have := hg hex
    refine ⟨by show s0.cut e.G - sh.cut e.G = r.total + g; omega, fun i hi si hsi => ?_⟩
    rcases hopt hex i (by simpa using hi) si hsi with ⟨hle, h1, h2⟩ | ⟨rfl, h1⟩
    · exact ⟨h1, fun hij => h2 (by simpa using hij)⟩
    · exact ⟨by show _ ≤ r.best; omega, fun hij => by simp at hij; omega⟩

/-- Over the pass, `recomputeLoop` makes the moves of the pass and keeps its
invariant. -/
theorem recomputeLoop_inv {log : List LogEntry} {ct : Bool} {s0 : Shared β} {base : Int} :
    ∀ {k index : Nat} {done : List Move} {j : Nat} {r r' : RecomputeState β},
      RecomputeInv (e := e) s0 base done j r → recomputeLoop e log ct k index r = .ok r' →
      ∃ ms j', madeMoves e e.recomputeTarget log k index r.sh = .ok (ms, r'.sh) ∧
        RecomputeInv (e := e) s0 base (done ++ ms) j' r'
  | 0, _, done, j, r, r', hi, h => by cases h; exact ⟨[], j, rfl, by simpa using hi⟩
  | k + 1, index, done, j, r, r', hi, h => by
    obtain ⟨le, he, h⟩ := bind_ok_iff.1 h
    rcases hga : e.computeGainActual r.sh.blocks.part le.node le.toPart with ⟨g, target⟩
    have ht : e.recomputeTarget r.sh.blocks.part le = target := by simp [Env.recomputeTarget, hga]
    simp only [hga] at h
    cases target with
    | none =>
      obtain ⟨-, h⟩ | ⟨-, h⟩ := ite_eq_iff.1 h
      · obtain ⟨ms, j', hms, hi'⟩ := recomputeLoop_inv (by exact hi) h
        exact ⟨ms, j', (madeMoves_none he ht).trans hms, hi'⟩
      · cases h
    | some dst =>
      obtain ⟨⟨success, sh⟩, hm, h⟩ := bind_ok_iff.1 h
      cases success with
      | false =>
        have hsh := relaxedMoveNode_false hm
        simp only [Bool.false_eq_true, if_false] at h
        obtain ⟨ms, j', hms, hi'⟩ := recomputeLoop_inv (by rw [hsh]; exact hi) h
        exact ⟨ms, j', madeMoves_some he ht hm hms, hi'⟩
      | true =>
        simp only [if_true] at h
        obtain ⟨ms, j', hms, hi'⟩ := recomputeLoop_inv (hi.push _ _ _ _ hm
          (fun hg => cut_after_move hm (by simpa [hga] using hg r.sh.blocks.part le.node le.toPart dst (by simp [hga])))
          (fun hb => by split_ifs at hb <;> omega) fun hb => by split_ifs at hb <;> omega) h
        exact ⟨_, j', madeMoves_some he ht hm hms, by simpa using hi'⟩

theorem recomputeLoop_ok {log : List LogEntry} (ct : Bool) :
    ∀ {k index : Nat} (r : RecomputeState β), index + k ≤ log.length →
      ∃ r', recomputeLoop e log ct k index r = .ok r'
  | 0, _, r, _ => ⟨r, rfl⟩
  | k + 1, index, r, hk => by
    have hlt : index < log.length := by omega
    simp only [recomputeLoop, entryAt, List.getElem?_eq_getElem hlt, bind, Except.bind]
    rcases hga : e.computeGainActual r.sh.blocks.part log[index].node log[index].toPart with
      ⟨g, target⟩
    simp only [hga]
    cases target with
    | none =>
      have hk : index + 1 + k ≤ log.length := by omega
      simpa using recomputeLoop_ok ct { r with aff := r.aff + 1 } hk
    | some dst =>
      obtain ⟨⟨success, sh⟩, hm⟩ := relaxedMoveNode_current (c := e.toCtx) r.sh log[index].node dst
      simp only [hm]
      cases success <;> exact recomputeLoop_ok ct _ (by omega)

/-- The pairs of `min_cut_indices` fit the log: a round that starts before
the end of the log has its pair, and the pair's `min_cut_index` is `-1` or an
index of the log. -/
def segmentsFit (n : Nat) : Nat → List (Int × Int) → Bool
  | index, [] => decide (n ≤ index)
  | index, (mci, next) :: rest =>
    if index < n then (decide (mci = -1) || decide (mci < n)) && segmentsFit n (next + 1).toNat rest
    else true

/-- What the outer loop keeps: `cut_improvement` is the drop of the cut since
the commit began, and it is never negative. -/
def CutTracked (s0 : Shared β) (r : RecomputeState β) : Prop :=
  ExactGainsActual e.G e.computeGainActual →
    s0.cut e.G - r.sh.cut e.G = r.cutImprovement ∧ 0 ≤ r.cutImprovement

/-- One segment: the loop makes the moves of the pass, and undoing the
vectors leaves the labels the first `j` of them lead to, the prefix with the
best running total, so `cut_improvement` grows by `best_total_gain ≥ 0`; for an
exact `compute_gain_actual` that prefix leaves the least cut of any. -/
theorem recomputeSegment_spec {log : List LogEntry} {ct : Bool} {s0 : Shared β}
    {r r1 : RecomputeState β} {k index : Nat}
    (h1 : recomputeLoop e log ct k index { r with total := 0, best := 0, pending := [] } = .ok r1) :
    ∃ s, unrollRelaxedMovesVec e.toCtx r1.pending r1.sh r1.cutImprovement =
        .ok (s, r1.cutImprovement - (r1.pending.map (·.gain)).sum) ∧
      (CutTracked (e := e) s0 r → CutTracked (e := e) s0
        { r1 with sh := s, cutImprovement := r1.cutImprovement - (r1.pending.map (·.gain)).sum }) ∧
      ∃ ms sEnd j sj, madeMoves e e.recomputeTarget log k index r.sh = .ok (ms, sEnd) ∧
        MovedAll e.toCtx r.sh (ms.take j) sj ∧ s.blocks = sj.blocks ∧
        (ExactGainsActual e.G e.computeGainActual → LeastCutPrefix e r.sh ms j) := by
  obtain ⟨ms, j, hms, hci, htot, hb0, hj, hrun, hmap, hcut⟩ := recomputeLoop_inv (recomputeInv_start r) h1
  simp only [List.nil_append] at hj hrun hmap hcut
  obtain ⟨sj, hsj, hdrop⟩ := MovedAll.of_append ((List.take_append_drop j ms).symm ▸ hrun)
  obtain ⟨s, hun, hs⟩ :=
    unrollRelaxedMovesVec_restores r1.cutImprovement hmap (by rwa [List.reverse_reverse]) rfl
  have hs' : s.cut e.G = sj.cut e.G := by simp only [Shared.cut, hs]
  refine ⟨s, hun, fun hc hex => ?_, ms, _, j, sj, hms, hsj, hs, fun hex => ⟨hj, fun i hi si sj' hsi hsj' => ?_⟩⟩
  · obtain ⟨h0, hn⟩ := hc hex
    obtain ⟨-, hopt⟩ := hcut hex
    have hb := (hopt j hj sj hsj).2 rfl
    show s0.cut e.G - s.cut e.G = r1.cutImprovement - (r1.pending.map (·.gain)).sum ∧
      0 ≤ r1.cutImprovement - (r1.pending.map (·.gain)).sum
    constructor <;> omega
  · obtain ⟨-, hopt⟩ := hcut hex
    rw [hsj'.det hsj]
    have := (hopt i hi si hsi).1
    have := (hopt j hj sj hsj).2 rfl
    omega

theorem recomputeSegments_spec {log : List LogEntry} (ct : Bool) {s0 : Shared β} :
    ∀ (mcis : List (Int × Int)) {index : Nat} (r : RecomputeState β),
      segmentsFit log.length index mcis = true → CutTracked (e := e) s0 r →
      ∃ r', recomputeSegments e log ct index mcis r = .ok r' ∧ CutTracked (e := e) s0 r'
  | [], index, r, hf, hc => by
    rw [recomputeSegments, if_neg (by simpa [segmentsFit] using hf)]
    exact ⟨r, rfl, hc⟩
  | (mci, next) :: rest, index, r, hf, hc => by
    by_cases hlt : index < log.length
    · simp only [segmentsFit, hlt, if_true, Bool.and_eq_true, Bool.or_eq_true,
        decide_eq_true_eq] at hf
      rw [recomputeSegments, if_pos hlt]
      by_cases hm : mci = -1
      · simpa only [hm, if_true] using recomputeSegments_spec ct rest r hf.2 hc
      · have hk : index + (mci + 1 - index).toNat ≤ log.length := by omega
        obtain ⟨r1, h1⟩ := recomputeLoop_ok (e := e) ct
          { r with total := 0, best := 0, pending := [] } hk
        obtain ⟨s, hun, hc1, -⟩ := @recomputeSegment_spec _ e _ _ s0 _ _ _ _ h1
        replace hc1 := hc1 hc
        obtain ⟨r', hr', hc'⟩ := recomputeSegments_spec ct rest _ hf.2 hc1
        refine ⟨r', ?_, hc'⟩
        simpa only [hm, if_false, bind, Except.bind, h1, hun] using hr'
    · rw [recomputeSegments, if_neg hlt]
      exact ⟨r, rfl, hc⟩

/-- For an exact `compute_gain_actual`, the outer loop commits its segments as
`SegmentsCommit` says: each keeps the prefix of its moves of least cut. -/
theorem recomputeSegments_commit (hga : ExactGainsActual e.G e.computeGainActual) {log : List LogEntry}
    {ct : Bool} : ∀ {mcis : List (Int × Int)} {index : Nat} {r r' : RecomputeState β},
      recomputeSegments e log ct index mcis r = .ok r' → SegmentsCommit e log index mcis r.sh r'.sh
  | [], index, r, r', h => by
    rw [recomputeSegments] at h
    split_ifs at h with hlt
    cases h
    exact .stop (by omega)
  | (mci, next) :: rest, index, r, r', h => by
    rw [recomputeSegments] at h
    split_ifs at h with hlt hm
    · exact .skip hlt hm (recomputeSegments_commit hga h)
    · obtain ⟨r1, h1, h⟩ := bind_ok_iff.1 h
      obtain ⟨⟨sh, ci⟩, hun, h⟩ := bind_ok_iff.1 h
      obtain ⟨s, hun', -, ms, sEnd, j, sj, hms, hsj, hs, hl⟩ := @recomputeSegment_spec _ e _ _ r.sh _ _ _ _ h1
      obtain ⟨rfl, -⟩ : s = sh ∧ _ := Prod.mk.inj (Except.ok.inj (hun'.symm.trans hun))
      exact .keep hlt hm hms (hl hga) hsj hs (recomputeSegments_commit hga h)
    · cases h
      exact .stop (by omega)

theorem applyMovesRecomputing_spec {td : ThreadLog} (hf : segmentsFit td.log.length 0 td.minCutIndices)
    (ct : Bool) (sh : Shared β) (touched : Nat → Bool) (o : Oracle) :
    ∃ res, applyMovesRecomputing e td ct sh touched o = .ok res ∧
      (ExactGainsActual e.G e.computeGainActual → sh.cut e.G - res.2.1.cut e.G = res.1 ∧ 0 ≤ res.1) := by
  obtain ⟨r', hr', hc⟩ := recomputeSegments_spec (e := e) ct td.minCutIndices
    { sh, oracle := o, touched, cutImprovement := 0, totalExpected := 0, aff := 0, total := 0,
      best := 0, pending := [] } hf (show CutTracked (e := e) sh _ from fun _ => ⟨sub_self _, le_rfl⟩)
  exact ⟨(r'.cutImprovement, r'.sh, r'.touched, r'.oracle),
    by simp only [applyMovesRecomputing, bind, Except.bind, hr']; rfl, hc⟩

/-- The commits of the threads `ids`, one after the other, each on the
state the one before left: `overall_gain` grows by the drop of the cut. -/
theorem commitThreads_spec (hga : ExactGainsActual e.G e.computeGainActual) {tds : List ThreadLog}
    (hf : ∀ td ∈ tds, segmentsFit td.log.length 0 td.minCutIndices = true) (rnd : Nat → Oracle) (ct : Bool) :
    ∀ (ids : List Nat), (∀ id ∈ ids, id < tds.length) → ∀ acc : Int × Shared β × (Nat → Bool),
      ∃ acc', ids.foldlM (commitThread e tds rnd ct) acc = .ok acc' ∧
        acc.2.1.cut e.G - acc'.2.1.cut e.G = acc'.1 - acc.1 ∧ acc.1 ≤ acc'.1
  | [], _, acc => ⟨acc, rfl, by simp, le_rfl⟩
  | id :: ids, hids, acc => by
    have hid : id < tds.length := hids id (List.mem_cons_self _ _)
    obtain ⟨⟨g, sh, touched, o⟩, h, hc⟩ :=
      applyMovesRecomputing_spec (hf _ (List.getElem_mem hid)) ct acc.2.1 acc.2.2 (rnd id)
    obtain ⟨hcut, hg⟩ := hc hga
    obtain ⟨acc', h', hcut', hle⟩ :=
      commitThreads_spec hga hf rnd ct ids (fun i hi => hids i (List.mem_cons_of_mem _ hi)) (acc.1 + g, sh, touched)
    refine ⟨acc', ?_, ?_, by simp only at hle; omega⟩
    · simp only [List.foldlM_cons, commitThread, entryAt, List.getElem?_eq_getElem hid, h, bind, Except.bind,
        pure, Except.pure]
      exact h'
    · simp only at hcut hcut'
      omega

/-- The reference gain routine: the drop of the cut when `v` moves to `x`. -/
def cutDropGain (G : Graph) (p : Nat → Nat) (v x : Nat) : Int × Option Nat :=
  (G.edgeCut p - G.edgeCut (Function.update p v x), some x)

/-- Two nodes joined by one edge of weight `1`. -/
def oneEdge : Graph :=
  ⟨2, fun _ => 1, fun v => if v = 0 then [⟨1, 1, by decide⟩] else [⟨0, 1, by decide⟩], fun _ => by norm_num⟩

/-- An apply phase on `oneEdge` whose gain routines are the reference. -/
def oneEdgeEnv : Env Unit :=
  { G := oneEdge, upperBound := 3, postMoved := fun _ _ _ _ _ => ()
    computeGain := fun p v => ⟨(cutDropGain oneEdge p v 1).1, some 1, 0⟩
    computeGainActual := cutDropGain oneEdge }

end Kahip
