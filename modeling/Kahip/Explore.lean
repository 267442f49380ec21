import Kahip.LocalSearch

/-!
# The exploration round

`single_kway_refinement_round_internal` explores one round of FM on a
thread-local view of the shared partition: local labels (`nodes_partitions`)
over the shared ones, local block counters, its own queue and log. The only
shared data it writes is `moved_idx`, the claim of a node for this batch,
taken by `compare_exchange_strong(false, true)` before the node enters the
queue. So that rounds of several threads can interleave at the grain of those
accesses, a thread is a small-step machine (`Explorer`, `exploreStep`): each
step does at most one access to `moved_idx`, and says which queue operation
it did (`Event`).

`td.compute_gain` is not part of the sample; it is a parameter, and
`connGain` models it from the spec's gain. The stop rule's verdicts, the
queue's choices among equal gains and `td.rnd` come from the `Oracle`.
-/

namespace Kahip

/-- What a round reads and never writes: the graph, the shared labels,
`config.upper_bound_partition`, `config.max_number_of_moves`, the thread
data's `compute_gain` on local labels (`labels node from`), and the sentinel
values of the header, which is not part of the sample. -/
structure ExploreCtx where
  G : Graph
  part : Nat → Nat
  upperBound : Int
  maxNumberOfMoves : Int
  gain : (Nat → Nat) → Nat → Nat → Gain
  sentinel : Nat
  signedSentinel : Int

/-- The log entry that ends a round. -/
def ExploreCtx.sentinelEntry (X : ExploreCtx) : LogEntry :=
  ⟨⟨X.sentinel, X.sentinel, X.sentinel⟩, X.signedSentinel⟩

/-- The round's own variables: `cut`, `best_cut`, `number_of_swaps`,
`movements`, `min_cut_index`, `previously_moved`, `max_number_of_swaps`. -/
structure Round where
  cut : Int
  bestCut : Int
  swaps : Int
  movements : Nat
  minCutIndex : Int
  previouslyMoved : Nat
  maxSwaps : Nat

/-- Where a thread is in its round: the seeding loop over the remaining
start nodes; the top of the main loop; the neighbour loop of
`local_move_node` for the move `m` it has made; its `compare_exchange` on a
neighbour whose `moved_idx` it read `false`; or done, with the round's
result `(initial_cut - best_cut, min_cut_index, movements)`. -/
inductive Pc where
  | initQueue (rest : List Nat)
  | loop (r : Round)
  | scan (r : Round) (m : LogEntry) (targets : List Nat)
  | claim (r : Round) (m : LogEntry) (target : Nat) (gain : Int) (targets : List Nat)
  | done (result : Int × Int × Nat)

/-- The thread data a round reads and writes: local labels, local block
weights and sizes, the queue, `td.moved`, the log, `td.rnd`, and where it
is. -/
structure Explorer where
  lp : Nat → Option Nat
  weights : Nat → Int
  sizes : Nat → Int
  queue : PQ
  moved : List Nat
  log : List LogEntry
  oracle : Oracle
  pc : Pc

/-- The queue operations a step reports. -/
inductive Event where
  | insert (v : Nat)
  | pop (v : Nat)
deriving Repr, DecidableEq

namespace Explorer

/-- `td.get_local_partition(v)`. -/
def localPart (X : ExploreCtx) (t : Explorer) (v : Nat) : Nat := (t.lp v).getD (X.part v)

/-- A new round: `queue->clear()`, then the seeding loop. -/
def beginRound (t : Explorer) (startNodes : List Nat) : Explorer :=
  { t with queue := PQ.empty, pc := .initQueue startNodes }

end Explorer

variable (X : ExploreCtx)

/-- `local_move_back_node` for the log entries after `min_cut_index`, last
first: the local counters only. -/
def unrollMoves (log : List LogEntry) (minCutIndex : Int) (ws : (Nat → Int) × (Nat → Int)) :
    (Nat → Int) × (Nat → Int) :=
  ((log.drop (minCutIndex + 1).toNat).reverse).foldl (fun ws le =>
    let w : Int := X.G.nodeWeight le.node
    let weights := Function.update ws.1 le.fromPart (ws.1 le.fromPart + w)
    let weights := Function.update weights le.toPart (weights le.toPart - w)
    let sizes := Function.update ws.2 le.toPart (ws.2 le.toPart - 1)
    (weights, Function.update sizes le.fromPart (sizes le.fromPart + 1))) ws

/-- The end of a round: `unroll_moves`, `nodes_partitions->clear()`, the
sentinel, and the result. -/
def finishRound (t : Explorer) (r : Round) : Explorer :=
  let ws := unrollMoves X t.log r.minCutIndex (t.weights, t.sizes)
  { t with lp := fun _ => none, weights := ws.1, sizes := ws.2
           log := t.log ++ [X.sentinelEntry]
           pc := .done (notionalCut - r.bestCut, r.minCutIndex, r.movements) }

/-- One step of a thread, given `moved_idx` and `num_threads_finished`:
the new `moved_idx`, the new thread state, and the queue operation it did. -/
def exploreStep (idx : Nat → Bool) (finished : Nat) (t : Explorer) :
    Except Fault ((Nat → Bool) × Explorer × Option Event) :=
  match t.pc with
  | .initQueue [] =>
    if t.queue.isEmpty then
      .ok (idx, { t with log := t.log ++ [X.sentinelEntry], pc := .done (0, -1, 0) }, none)
    else
      let pm := t.log.length
      let maxSwaps := if X.maxNumberOfMoves ≠ -1 then X.maxNumberOfMoves.toNat else X.G.n
      .ok (idx, { t with pc := .loop ⟨notionalCut, notionalCut, 0, 0, pm - 1, pm, maxSwaps⟩ }, none)
  | .initQueue (v :: rest) =>
    if idx v then .ok (idx, { t with pc := .initQueue rest }, none)
    else
      let g := X.gain (t.localPart X) v (t.localPart X v)
      .ok (Function.update idx v true,
        { t with queue := t.queue.insert v g.gain, moved := t.moved ++ [v], pc := .initQueue rest },
        some (.insert v))
  | .loop r =>
    if ¬ r.movements < r.maxSwaps ∨ t.queue.isEmpty ∨ 0 < finished then
      .ok (idx, finishRound X t r, none)
    else
      let (stop, oracle) := t.oracle.stop
      if stop then .ok (idx, finishRound X { t with oracle } r, none)
      else
        let gain := t.queue.maxValue
        let (pick, oracle) := oracle.pick
        let (node, queue) := t.queue.deleteMax pick
        let src := t.localPart X node
        let expected := X.gain (t.localPart X) node src
        if expected.gain ≠ gain then .error .assertion
        else match expected.maxGainer with
        | none => .error .assertion
        | some dst =>
          let w : Int := X.G.nodeWeight node
          let failed := { t with queue, oracle, pc := .loop { r with movements := r.movements + 1 } }
          if t.sizes src = 1 then .ok (idx, failed, some (.pop node))
          else if X.upperBound ≤ t.weights dst + w then .ok (idx, failed, some (.pop node))
          else
            let weights := Function.update t.weights dst (t.weights dst + w)
            let weights := Function.update weights src (weights src - w)
            let sizes := Function.update t.sizes dst (t.sizes dst + 1)
            .ok (idx,
              { t with queue, oracle, weights
                       lp := Function.update t.lp node (some dst)
                       sizes := Function.update sizes src (sizes src - 1)
                       pc := .scan r ⟨⟨node, src, dst⟩, gain⟩ ((X.G.adj node).map (·.target)) },
              some (.pop node))
  | .scan r m [] =>
    let cut := r.cut - m.gain
    let (acceptEqual, oracle) := t.oracle.bit
    let better := decide (cut < r.bestCut) || (decide (cut = r.bestCut) && acceptEqual)
    let minCutIndex := if better then r.previouslyMoved + r.swaps else r.minCutIndex
    if (t.log.length + 1 : Int) ≤ minCutIndex then .error .assertion
    else .ok (idx,
      { t with oracle, log := t.log ++ [m]
               pc := .loop { r with cut, minCutIndex
                                    bestCut := if better then cut else r.bestCut
                                    swaps := r.swaps + 1, movements := r.movements + 1 } },
      none)
  | .scan r m (v :: rest) =>
    let g := X.gain (t.localPart X) v (t.localPart X v)
    if t.queue.contains v then
      let queue := if 0 < g.extDegree then t.queue.changeKey v g.gain else t.queue.deleteNode v
      .ok (idx, { t with queue, pc := .scan r m rest }, none)
    else if idx v then .ok (idx, { t with pc := .scan r m rest }, none)
    else if 0 < g.extDegree then .ok (idx, { t with pc := .claim r m v g.gain rest }, none)
    else .ok (idx, { t with pc := .scan r m rest }, none)
  | .claim r m v gain rest =>
    if idx v then .ok (idx, { t with pc := .scan r m rest }, none)
    else .ok (Function.update idx v true,
      { t with queue := t.queue.insert v gain, moved := t.moved ++ [v], pc := .scan r m rest },
      some (.insert v))
  | .done _ => .ok (idx, t, none)

/-- One thread alone runs its round to the end, in at most `fuel` steps. -/
def runRound (finished : Nat) : Nat → (Nat → Bool) → Explorer →
    Except Fault ((Nat → Bool) × Explorer)
  | 0, _, _ => .error .diverges
  | fuel + 1, idx, t =>
    match t.pc with
    | .done _ => .ok (idx, t)
    | _ => do
      let (idx, t, _) ← exploreStep X idx finished t
      runRound finished fuel idx t

/-- One thread runs a round per list of start nodes, its caller recording
each round's `(min_cut_index, index of its sentinel)` in
`td.min_cut_indices`. -/
def runRounds (finished fuel : Nat) :
    List (List Nat) → (Nat → Bool) × Explorer × List (Int × Int) →
      Except Fault ((Nat → Bool) × Explorer × List (Int × Int))
  | [], acc => .ok acc
  | starts :: rest, (idx, t, mcis) => do
    let (idx, t) ← runRound X finished fuel idx (t.beginRound starts)
    match t.pc with
    | .done (_, minCutIndex, _) =>
      runRounds finished fuel rest (idx, t, mcis ++ [(minCutIndex, (t.log.length : Int) - 1)])
    | _ => .error .diverges

/-! ## A small instance -/

/-- Rounds on `bridge` with bound `10`, no move limit and the gain of
`connGain`. -/
def bridgeCtx : ExploreCtx := ⟨bridge, bridgePart, 10, -1, connGain bridge, 4294967295, 2147483647⟩

/-- A thread before its first round on `bridgePart`. -/
def idleThread : Explorer :=
  ⟨fun _ => none, fun b => if b < 2 then 2 else 0, fun b => if b < 2 then 2 else 0, PQ.empty, [], [],
    Oracle.firstChoice, .done (0, 0, 0)⟩

/-- One round on `bridge` from node `1` moves `1` to block `1` and keeps the
move (`min_cut_index` `0`). `unroll_moves` leaves the counters of the kept
move in place, so they are those of `bridgePart` with `1` in block `1`; but
`nodes_partitions->clear()` drops the local label, so the thread's view puts
`1` back in block `0`. -/
theorem round_shadow_forgets_kept_move :
    ∃ idx t, runRounds bridgeCtx 0 50 [[1]] (fun _ => false, idleThread, []) = .ok (idx, t, [(0, 1)]) ∧
      t.log = [⟨⟨1, 0, 1⟩, 1⟩, bridgeCtx.sentinelEntry] ∧
      (∀ b < 2, t.weights b = bridge.blockWeightOf (Function.update bridgePart 1 1) b ∧
        t.sizes b = bridge.blockSizeOf (Function.update bridgePart 1 1) b) ∧
      t.localPart bridgeCtx 1 ≠ Function.update bridgePart 1 1 1 :=
  ⟨_, _, rfl, rfl, by decide, by decide⟩

end Kahip
