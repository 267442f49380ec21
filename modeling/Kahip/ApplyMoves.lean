import Kahip.Explore

/-!
# The commit of the logged moves

`apply_moves(td, moved_nodes, ...)` walks one thread's log segment by
segment and replays each logged move with its logged gain, after checking
that neither the node nor a neighbour that matters was moved by another
thread (`moved_nodes`) or left unmoved by this one (`not_moved`); on a
conflict, or when `relaxed_move_node` refuses, it undoes the segment's moves
after the best prefix and hands the rest to the configured policy.
`apply_moves(threads_data, ..., finished_threads, futures, ...)` runs it for
thread `0` and then for the other threads in the order they finish.

`moved_nodes[target].second` is `operator[]`: on a missing key it inserts
`(0, 0)`, which the model keeps.

Every successful commit is a run of the move history of `History`, so the
balance guarantees of every reachable state hold along it. Two runs on small
instances, with logs the exploration rounds of `Explore` produce, end the
module: a commit that reports a drop of the cut that did not happen, and an
entry of `moved_nodes` that no move made.
-/

namespace Kahip

/-- `config.apply_move_strategy`. -/
inductive ApplyMoveStrategy where
  | localSearch
  | gainRecalculation
  | reactiveVertices
  | skip
deriving Repr, DecidableEq

/-- What the commit reads of the configuration besides the context:
`apply_move_strategy` and `kway_all_boundary_nodes_refinement`. -/
structure ApplyConfig where
  strategy : ApplyMoveStrategy
  allBoundaryNodes : Bool

/-- `is_moved(moved_nodes, node, thread_id)`: some thread other than
`thread_id` (or every thread, after a recalculation) moved `node`. -/
def isMoved (movedNodes : Nat → Option (Nat × Nat)) (node tid : Nat) : Bool :=
  match movedNodes node with
  | none => false
  | some (owner, _) => owner != tid

/-- The neighbour scan of the commit for a move `src → dst`: whether a
neighbour moved by another thread, or in `not_moved`, is in or came from
`src` or `dst`; with `moved_nodes` after the scan's `operator[]` reads. -/
def neighbourConflict (part : Nat → Nat) (notMoved : List Nat) (tid src dst : Nat) :
    List Nat → (Nat → Option (Nat × Nat)) → Bool × (Nat → Option (Nat × Nat))
  | [], mn => (false, mn)
  | t :: ts, mn =>
    let targetNotMoved := decide (t ∈ notMoved)
    if isMoved mn t tid || targetNotMoved then
      let prev := ((mn t).getD (0, 0)).2
      let mn := if (mn t).isSome then mn else Function.update mn t (some (0, 0))
      if targetNotMoved || decide (part t = dst) || decide (part t = src) || decide (prev = dst) ||
          decide (prev = src) then (true, mn)
      else neighbourConflict part notMoved tid src dst ts mn
    else neighbourConflict part notMoved tid src dst ts mn

/-- `not_moved.insert(td.transpositions[i])` for `k` indices from `i`. -/
def addNotMoved (log : List LogEntry) : Nat → Nat → List Nat → Except Fault (List Nat)
  | 0, _, nm => .ok nm
  | k + 1, i, nm => do
    let le ← entryAt log i
    addNotMoved log k (i + 1) (le.node :: nm)

/-- The state of the per-thread commit: what it shares with the other
commits (labels, counters, `moved_nodes`, `touched_blocks`,
`reactivated_vertices`), `td.rnd`, `not_moved` and `cut_improvement`. -/
structure ApplyState (β : Type) where
  c : Commit β
  oracle : Oracle
  notMoved : List Nat
  cutImprovement : Int

variable {β : Type} (e : Env β) (cfg : ApplyConfig)

/-- The lambda `apply_move_strategy_for_conflict`: undo the log entries
`best_cut_index + 1, ..., index - 1`, put the entries up to `min_cut_index`
into `not_moved`, and run the policy; returns `(gain, movements)`. -/
def applyMoveStrategyForConflict (td : ThreadLog) (ct : Bool) (st : ApplyState β)
    (bestCutIndex : Int) (index : Nat) (minCutIndex nextIndex : Int) :
    Except Fault ((Int × Nat) × ApplyState β) := do
  let first := (bestCutIndex + 1).toNat
  let (sh, movedNodes, cutImprovement) ←
    unrollRelaxedMoves e.toCtx td.log first (index - first) st.c.sh st.c.movedNodes
      st.cutImprovement
  let notMoved ← addNotMoved td.log (minCutIndex - bestCutIndex).toNat first st.notMoved
  let st : ApplyState β := { st with c := { st.c with sh, movedNodes }, notMoved, cutImprovement }
  match cfg.strategy with
  | .localSearch =>
    let le ← entryAt td.log first
    let (res, c, oracle) ← localSearchFromOneNode e le.node
      ((nextIndex - bestCutIndex - 1) % 2 ^ 32).toNat ct st.c st.oracle
    pure (res, { st with c, oracle })
  | .gainRecalculation =>
    let (res, c, oracle) ← gainRecalculation e td.log first nextIndex.toNat ct st.c st.oracle
    pure ((res.1, res.2.toNat), { st with c, oracle })
  | .reactiveVertices =>
    let le ← entryAt td.log first
    let reactivated := st.c.reactivated ++ le.node :: (e.G.adj le.node).map (·.target)
    pure ((0, 0), { st with c := { st.c with reactivated } })
  | .skip => pure ((0, 0), st)

/-- The exits of the inner loop through the policy: `cut_improvement += gain`. -/
def conflictExit (td : ThreadLog) (ct : Bool) (st : ApplyState β) (bestCutIndex : Int)
    (index : Nat) (minCutIndex nextIndex : Int) : Except Fault (ApplyState β) := do
  let (res, st) ← applyMoveStrategyForConflict e cfg td ct st bestCutIndex index minCutIndex
    nextIndex
  pure { st with cutImprovement := st.cutImprovement + res.1 }

/-- The inner loop of the per-thread commit over the entries `index`, ...,
`min_cut_index` of one segment (`k` of them), with `best_cut_index`,
`total_gain` and `best_total_gain`. -/
def applyLoop (td : ThreadLog) (ct : Bool) (minCutIndex nextIndex : Int) :
    Nat → Nat → Int → Int → Int → ApplyState β → Except Fault (ApplyState β)
  | 0, _, _, _, _, st => .ok st
  | k + 1, index, bestCutIndex, total, best, st => do
    let le ← entryAt td.log index
    let conflict := fun st => conflictExit e cfg td ct st bestCutIndex index minCutIndex nextIndex
    if isMoved st.c.movedNodes le.node td.id then conflict st
    else
      let (clash, movedNodes) := neighbourConflict st.c.sh.blocks.part st.notMoved td.id
        le.fromPart le.toPart ((e.G.adj le.node).map (·.target)) st.c.movedNodes
      let st := { st with c := { st.c with movedNodes } }
      if clash then conflict st
      else
        let (success, sh) ← relaxedMoveNode e.toCtx st.c.sh le.node le.fromPart le.toPart
        if success then
          let total := total + le.gain
          let (better, oracle) :=
            if total > best then (true, st.oracle)
            else if total = best then st.oracle.bit
            else (false, st.oracle)
          applyLoop td ct minCutIndex nextIndex k (index + 1)
            (if better then index else bestCutIndex) total (if better then total else best)
            { st with
              c := { st.c with
                sh
                movedNodes := Function.update st.c.movedNodes le.node (some (td.id, le.fromPart))
                touched := if ct then touch st.c.touched le.fromPart le.toPart else st.c.touched
                reactivated :=
                  if cfg.strategy = .reactiveVertices ∧ cfg.allBoundaryNodes then
                    st.c.reactivated ++ le.node :: (e.G.adj le.node).map (·.target)
                  else st.c.reactivated }
              oracle
              cutImprovement := st.cutImprovement + le.gain }
        else conflict { st with c := { st.c with sh } }

/-- The outer loop of the per-thread commit: one segment per pair of
`min_cut_indices`, skipping rounds whose `min_cut_index` is `-1`. -/
def applySegments (td : ThreadLog) (ct : Bool) :
    Nat → List (Int × Int) → ApplyState β → Except Fault (ApplyState β)
  | index, mcis, st =>
    if index < td.log.length then
      match mcis with
      | [] => .error .outOfBounds
      | (mci, next) :: rest =>
        if mci = -1 then applySegments td ct (next + 1).toNat rest st
        else do
          let st ← applyLoop e cfg td ct mci next (mci + 1 - index).toNat index (index - 1) 0 0 st
          applySegments td ct (next + 1).toNat rest st
    else .ok st

/-- `apply_moves(td, moved_nodes, compute_touched_partitions, touched_blocks,
reactivated_vertices)`: returns `cut_improvement`. -/
def applyMovesThread (td : ThreadLog) (ct : Bool) (c : Commit β) (o : Oracle) :
    Except Fault (Int × Commit β × Oracle) := do
  let st ← applySegments e cfg td ct 0 td.minCutIndices
    { c, oracle := o, notMoved := [], cutImprovement := 0 }
  pure (st.cutImprovement, st.c, st.oracle)

/-- The loop of the coordinator over `finished_threads`: `k` threads still
to commit; an id popped twice asks its future a second time. -/
def applyFinished (tds : List ThreadLog) (rnd : Nat → Oracle) (ct : Bool) (futures : Nat → Bool) :
    List Nat → List Nat → Nat → Int × Bool → Commit β → Except Fault ((Int × Bool) × Commit β)
  | _, _, 0, acc, c => .ok (acc, c)
  | _, [], _ + 1, _, _ => .error .diverges
  | done, id :: ids, k + 1, (gain, more), c =>
    if id = 0 then .error .assertion
    else if id ∈ done then .error .exception
    else do
      let td ← entryAt tds id
      let (g, c, _) ← applyMovesThread e cfg td ct c (rnd id)
      applyFinished tds rnd ct futures (id :: done) ids k (gain + g, more || futures (id - 1)) c

/-- `apply_moves(threads_data, compute_touched_partitions, touched_blocks,
reactivated_vertices, finished_threads, futures, is_more_that_5percent_moved)`
with `finished_threads` yielding `finishOrder`: returns the overall gain and
whether a future reported more than 5% moved. -/
def applyMoves (tds : List ThreadLog) (rnd : Nat → Oracle) (ct : Bool) (finishOrder : List Nat)
    (futures : Nat → Bool) (sh : Shared β) (touched : Nat → Bool) (reactivated : List Nat) :
    Except Fault ((Int × Bool) × Commit β) := do
  let td0 ← entryAt tds 0
  let (g0, c, _) ← applyMovesThread e cfg td0 ct ⟨sh, fun _ => none, touched, reactivated⟩ (rnd 0)
  if 1 < tds.length then applyFinished e cfg tds rnd ct futures [] finishOrder (tds.length - 1) (g0, false) c
  else pure ((g0, false), c)

/-! ## Exact counters -/

variable {e cfg}

/-- The policy after a conflict reads the entries from `best_cut_index + 1` up
to `index` or `next_index`. -/
theorem applyMoveStrategyForConflict_keeps_exact {td : ThreadLog} {ct : Bool} {st st' : ApplyState β}
    {bestCutIndex : Int} {index : Nat} {minCutIndex nextIndex : Int} {res : Int × Nat}
    (hv : ∀ v, nodesIn td.log (bestCutIndex + 1).toNat (max index nextIndex.toNat) v → v < e.G.n)
    (h : applyMoveStrategyForConflict e cfg td ct st bestCutIndex index minCutIndex nextIndex =
      .ok (res, st'))
    (hx : st.c.sh.blocks.Exact e.G) : st'.c.sh.blocks.Exact e.G := by
  obtain ⟨⟨sh, mn, ci⟩, hu, h⟩ := bind_ok_iff.1 h
  obtain ⟨nm, -, h⟩ := bind_ok_iff.1 h
  have hx' := unrollRelaxedMoves_exact
    (fun v ⟨p, le, h1, h2, h3, h4⟩ => hv v ⟨p, le, h1, by omega, h3, h4⟩) hu hx
  split at h
  · obtain ⟨le, -, h⟩ := bind_ok_iff.1 h
    obtain ⟨⟨res', c', o'⟩, hl, h⟩ := bind_ok_iff.1 h
    cases h
    exact (localSearchFromOneNode_restores hl).symm ▸ hx'
  · obtain ⟨⟨res', c', o'⟩, hg, h⟩ := bind_ok_iff.1 h
    cases h
    exact gainRecalculation_keeps_exact (fun v h => hv v (nodesIn_mono le_rfl (le_max_right _ _) h)) hg hx'
  · obtain ⟨le, -, h⟩ := bind_ok_iff.1 h
    cases h
    exact hx'
  · cases h
    exact hx'

theorem conflictExit_keeps_exact {td : ThreadLog} {ct : Bool} {st st' : ApplyState β}
    {bestCutIndex : Int} {index : Nat} {minCutIndex nextIndex : Int}
    (hv : ∀ v, nodesIn td.log (bestCutIndex + 1).toNat (max index nextIndex.toNat) v → v < e.G.n)
    (h : conflictExit e cfg td ct st bestCutIndex index minCutIndex nextIndex = .ok st')
    (hx : st.c.sh.blocks.Exact e.G) : st'.c.sh.blocks.Exact e.G := by
  obtain ⟨⟨res, st1⟩, hs, h⟩ := bind_ok_iff.1 h
  cases h
  have := applyMoveStrategyForConflict_keeps_exact hv hs hx
  exact this

/-- The inner loop over one segment `lo`, ..., `next_index - 1`: every entry it
reads or undoes lies in the segment. -/
theorem applyLoop_keeps_exact {td : ThreadLog} {ct : Bool} {minCutIndex nextIndex : Int} {lo : Nat}
    (hv : ∀ v, nodesIn td.log lo nextIndex.toNat v → v < e.G.n) :
    ∀ {k index : Nat} {bestCutIndex total best : Int} {st st' : ApplyState β},
      index + k ≤ nextIndex.toNat → (lo : Int) ≤ bestCutIndex + 1 → bestCutIndex + 1 ≤ index →
      applyLoop e cfg td ct minCutIndex nextIndex k index bestCutIndex total best st = .ok st' →
      st.c.sh.blocks.Exact e.G → st'.c.sh.blocks.Exact e.G
  | 0, _, _, _, _, st, st', _, _, _, h => by cases h; exact id
  | k + 1, index, bestCutIndex, total, best, st, st', hk, hlo, hbi, h => by
    have hconf : ∀ v, nodesIn td.log (bestCutIndex + 1).toNat (max index nextIndex.toNat) v → v < e.G.n :=
      fun v h => hv v (nodesIn_mono (by omega) (by omega) h)
    obtain ⟨le, he, h⟩ := bind_ok_iff.1 h
    simp only at h
    by_cases hm : isMoved st.c.movedNodes le.node td.id = true
    · rw [if_pos hm] at h; exact conflictExit_keeps_exact hconf h
    rw [if_neg hm] at h
    by_cases hc : (neighbourConflict st.c.sh.blocks.part st.notMoved td.id le.fromPart le.toPart
        ((e.G.adj le.node).map (·.target)) st.c.movedNodes).1 = true
    · rw [if_pos hc] at h; exact fun hx => conflictExit_keeps_exact hconf h hx
    rw [if_neg hc] at h
    obtain ⟨⟨success, sh⟩, hm, h⟩ := bind_ok_iff.1 h
    cases success with
    | false =>
      rw [relaxedMoveNode_false hm] at h
      simp only [Bool.false_eq_true, if_false] at h
      exact fun hx => conflictExit_keeps_exact hconf h hx
    | true =>
      exact fun hx => applyLoop_keeps_exact hv (by omega) (by split <;> omega) (by split <;> omega) h
        (relaxedMoveNode_exact (hv _ ⟨index, le, by omega, by omega, entryAt_ok he, rfl⟩) hx hm)

theorem applySegments_keeps_exact {td : ThreadLog} {ct : Bool} :
    ∀ {mcis : List (Int × Int)} {index : Nat} {st st' : ApplyState β}, SegsShape index mcis →
      (∀ v, segNodes td.log index mcis v → v < e.G.n) →
      applySegments e cfg td ct index mcis st = .ok st' →
      st.c.sh.blocks.Exact e.G → st'.c.sh.blocks.Exact e.G
  | [], index, st, st', _, _, h => by
    rw [applySegments] at h
    split_ifs at h
    cases h
    exact id
  | (mci, next) :: rest, index, st, st', ⟨hle, hmn, hs⟩, hv, h => by
    have hrest : ∀ v, segNodes td.log (next + 1).toNat rest v → v < e.G.n :=
      fun v h => hv v (segNodes_tail h)
    rw [applySegments] at h
    split_ifs at h with hlt hm
    · exact applySegments_keeps_exact hs hrest h
    · obtain ⟨st1, h1, h⟩ := bind_ok_iff.1 h
      have hmn := hmn hm
      exact fun hx => applySegments_keeps_exact hs hrest h
        (applyLoop_keeps_exact (fun v h => hv v (segNodes_head hm h)) (by omega) (by omega) (by omega) h1 hx)
    · cases h
      exact id

theorem applyMovesThread_keeps_exact {td : ThreadLog} {ct : Bool} (hs : SegsShape 0 td.minCutIndices)
    (hv : ∀ v, td.Replays v → v < e.G.n) {c c' : Commit β} {o o' : Oracle} {g : Int}
    (h : applyMovesThread e cfg td ct c o = .ok (g, c', o')) (hx : c.sh.blocks.Exact e.G) :
    c'.sh.blocks.Exact e.G := by
  obtain ⟨st, hs', h⟩ := bind_ok_iff.1 h
  cases h
  exact applySegments_keeps_exact hs hv hs' hx

theorem take_drop_succ_eq {α : Type} {l : List α} {f i : Nat} {a : α} (hf : f ≤ i) (h : l[i]? = some a) :
    (l.drop f).take (i + 1 - f) = (l.drop f).take (i - f) ++ [a] := by
  rw [show i + 1 - f = i - f + 1 by omega, List.take_succ, List.getElem?_drop, show f + (i - f) = i by omega, h]
  rfl

theorem applyMoveStrategyForConflict_steps {td : ThreadLog} {ct : Bool} {st st' : ApplyState β}
    {bestCutIndex : Int} {index : Nat} {minCutIndex nextIndex : Int} {res : Int × Nat}
    (h : applyMoveStrategyForConflict e cfg td ct st bestCutIndex index minCutIndex nextIndex =
      .ok (res, st')) (H : List Move) :
    ∃ kept, Relation.ReflTransGen (CommitStep e.toCtx)
      (st.c.sh, (((td.log.drop (bestCutIndex + 1).toNat).take (index - (bestCutIndex + 1).toNat)).map
        (·.toMove)).reverse ++ H) (st'.c.sh, kept ++ H) := by
  obtain ⟨⟨sh, mn, ci⟩, hu, h⟩ := bind_ok_iff.1 h
  obtain ⟨nm, -, h⟩ := bind_ok_iff.1 h
  have hundo := unrollRelaxedMoves_steps hu H
  split at h
  · obtain ⟨le, -, h⟩ := bind_ok_iff.1 h
    obtain ⟨⟨res', c', o'⟩, hl, h⟩ := bind_ok_iff.1 h
    cases h
    exact ⟨[], hundo.trans (localSearchFromOneNode_steps hl H)⟩
  · obtain ⟨⟨res', c', o'⟩, hg, h⟩ := bind_ok_iff.1 h
    cases h
    obtain ⟨kept, hgr⟩ := gainRecalculation_steps hg H
    exact ⟨kept, hundo.trans hgr⟩
  · obtain ⟨le, -, h⟩ := bind_ok_iff.1 h
    cases h
    exact ⟨[], hundo⟩
  · cases h
    exact ⟨[], hundo⟩

theorem conflictExit_steps {td : ThreadLog} {ct : Bool} {st st' : ApplyState β}
    {bestCutIndex : Int} {index : Nat} {minCutIndex nextIndex : Int}
    (h : conflictExit e cfg td ct st bestCutIndex index minCutIndex nextIndex = .ok st') (H : List Move) :
    ∃ kept, Relation.ReflTransGen (CommitStep e.toCtx)
      (st.c.sh, (((td.log.drop (bestCutIndex + 1).toNat).take (index - (bestCutIndex + 1).toNat)).map
        (·.toMove)).reverse ++ H) (st'.c.sh, kept ++ H) := by
  obtain ⟨⟨res, st1⟩, hs, h⟩ := bind_ok_iff.1 h
  cases h
  exact applyMoveStrategyForConflict_steps hs H

/-- The inner loop: the moves after the best prefix are in force above `H`;
a new best prefix moves them below it. -/
theorem applyLoop_steps {td : ThreadLog} {ct : Bool} {minCutIndex nextIndex : Int} :
    ∀ {k index : Nat} {bestCutIndex total best : Int} {st st' : ApplyState β} (H : List Move),
      (bestCutIndex + 1).toNat ≤ index →
      applyLoop e cfg td ct minCutIndex nextIndex k index bestCutIndex total best st = .ok st' →
      ∃ kept, Relation.ReflTransGen (CommitStep e.toCtx)
        (st.c.sh, (((td.log.drop (bestCutIndex + 1).toNat).take (index - (bestCutIndex + 1).toNat)).map
          (·.toMove)).reverse ++ H) (st'.c.sh, kept ++ H)
  | 0, _, _, _, _, st, st', H, _, h => by cases h; exact ⟨_, .refl⟩
  | k + 1, index, bestCutIndex, total, best, st, st', H, hbi, h => by
    obtain ⟨le, he, h⟩ := bind_ok_iff.1 h
    simp only at h
    by_cases hm : isMoved st.c.movedNodes le.node td.id = true
    · rw [if_pos hm] at h; exact conflictExit_steps h H
    rw [if_neg hm] at h
    by_cases hc : (neighbourConflict st.c.sh.blocks.part st.notMoved td.id le.fromPart le.toPart
        ((e.G.adj le.node).map (·.target)) st.c.movedNodes).1 = true
    · rw [if_pos hc] at h; exact conflictExit_steps h H
    rw [if_neg hc] at h
    obtain ⟨⟨success, sh⟩, hmv, h⟩ := bind_ok_iff.1 h
    cases success with
    | false =>
      rw [relaxedMoveNode_false hmv] at h
      simp only [Bool.false_eq_true, if_false] at h
      exact conflictExit_steps h H
    | true =>
      simp only [if_true] at h
      have hstep := Relation.ReflTransGen.single (CommitStep.moved (m := le.toMove) (h :=
        (((td.log.drop (bestCutIndex + 1).toNat).take (index - (bestCutIndex + 1).toNat)).map
          (·.toMove)).reverse ++ H) hmv)
      generalize (if total + le.gain > best then (true, st.oracle)
        else if total + le.gain = best then st.oracle.bit else (false, st.oracle)) = p at h
      obtain ⟨better, oracle⟩ := p
      cases better with
      | false =>
        simp only [Bool.false_eq_true, if_false] at h
        obtain ⟨kept, hrest⟩ := applyLoop_steps H (by omega) h
        rw [take_drop_succ_eq hbi (entryAt_ok he), List.map_append, List.reverse_append] at hrest
        exact ⟨kept, hstep.trans hrest⟩
      | true =>
        simp only [if_true] at h
        obtain ⟨kept, hrest⟩ := applyLoop_steps (le.toMove ::
          (((td.log.drop (bestCutIndex + 1).toNat).take (index - (bestCutIndex + 1).toNat)).map
            (·.toMove)).reverse ++ H) (by omega) h
        simp only [show ((index : Int) + 1).toNat = index + 1 by omega, Nat.sub_self,
          List.take_zero, List.map_nil, List.reverse_nil, List.nil_append] at hrest
        refine ⟨kept ++ le.toMove :: (((td.log.drop (bestCutIndex + 1).toNat).take
          (index - (bestCutIndex + 1).toNat)).map (·.toMove)).reverse, ?_⟩
        rw [List.append_assoc, List.cons_append]
        exact hstep.trans hrest

/-- The outer loop: each segment starts with no move above `H`. -/
theorem applySegments_steps {td : ThreadLog} {ct : Bool} :
    ∀ {mcis : List (Int × Int)} {index : Nat} {st st' : ApplyState β} (H : List Move),
      applySegments e cfg td ct index mcis st = .ok st' →
      ∃ kept, Relation.ReflTransGen (CommitStep e.toCtx) (st.c.sh, H) (st'.c.sh, kept ++ H)
  | [], index, st, st', H, h => by
    rw [applySegments] at h
    split_ifs at h
    cases h
    exact ⟨[], .refl⟩
  | (mci, next) :: rest, index, st, st', H, h => by
    rw [applySegments] at h
    split_ifs at h with hlt hm
    · exact applySegments_steps H h
    · obtain ⟨st1, h1, h⟩ := bind_ok_iff.1 h
      obtain ⟨k1, h1⟩ := applyLoop_steps H (by omega) h1
      simp only [show ((index : Int) - 1 + 1).toNat = index by omega, Nat.sub_self, List.take_zero,
        List.map_nil, List.reverse_nil, List.nil_append] at h1
      obtain ⟨k2, h2⟩ := applySegments_steps (k1 ++ H) h
      exact ⟨k2 ++ k1, by rw [List.append_assoc]; exact h1.trans h2⟩
    · cases h
      exact ⟨[], .refl⟩

theorem applyMovesThread_steps {td : ThreadLog} {ct : Bool} {c c' : Commit β} {o o' : Oracle} {g : Int}
    (h : applyMovesThread e cfg td ct c o = .ok (g, c', o')) (H : List Move) :
    ∃ kept, Relation.ReflTransGen (CommitStep e.toCtx) (c.sh, H) (c'.sh, kept ++ H) := by
  obtain ⟨st, hs, h⟩ := bind_ok_iff.1 h
  cases h
  exact applySegments_steps H hs

theorem applyFinished_steps {tds : List ThreadLog} {rnd : Nat → Oracle} {ct : Bool} {futures : Nat → Bool} :
    ∀ {done ids : List Nat} {k : Nat} {acc acc' : Int × Bool} {c c' : Commit β} (H : List Move),
      applyFinished e cfg tds rnd ct futures done ids k acc c = .ok (acc', c') →
      ∃ kept, Relation.ReflTransGen (CommitStep e.toCtx) (c.sh, H) (c'.sh, kept ++ H)
  | _, _, 0, _, _, _, _, H, h => by
    simp only [applyFinished, Except.ok.injEq, Prod.mk.injEq] at h
    obtain ⟨-, rfl⟩ := h
    exact ⟨[], .refl⟩
  | _, [], _ + 1, _, _, _, _, _, h => by simp [applyFinished] at h
  | done, id :: ids, k + 1, (gain, more), acc', c, c', H, h => by
    simp only [applyFinished] at h
    split_ifs at h
    obtain ⟨td, -, h⟩ := bind_ok_iff.1 h
    obtain ⟨⟨g, c1, o1⟩, h1, h⟩ := bind_ok_iff.1 h
    obtain ⟨k1, h1⟩ := applyMovesThread_steps h1 H
    obtain ⟨k2, h2⟩ := applyFinished_steps (k1 ++ H) h
    exact ⟨k2 ++ k1, by rw [List.append_assoc]; exact h1.trans h2⟩

theorem applyMoves_steps {tds : List ThreadLog} {rnd : Nat → Oracle} {ct : Bool} {finishOrder : List Nat}
    {futures : Nat → Bool} {sh : Shared β} {touched : Nat → Bool} {reactivated : List Nat}
    {res : Int × Bool} {c : Commit β}
    (h : applyMoves e cfg tds rnd ct finishOrder futures sh touched reactivated = .ok (res, c)) (H : List Move) :
    ∃ kept, Relation.ReflTransGen (CommitStep e.toCtx) (sh, H) (c.sh, kept ++ H) := by
  obtain ⟨td0, -, h⟩ := bind_ok_iff.1 h
  obtain ⟨⟨g0, c0, o0⟩, h0, h⟩ := bind_ok_iff.1 h
  obtain ⟨k0, h0⟩ := applyMovesThread_steps h0 H
  simp only at h
  split_ifs at h
  · obtain ⟨k1, h1⟩ := applyFinished_steps (k0 ++ H) h
    exact ⟨k1 ++ k0, by rw [List.append_assoc]; exact h0.trans h1⟩
  · cases h
    exact ⟨k0, h0⟩

/-- One thread explores two rounds on `bridge`, from `1` and then from `2`.
The first moves `1` to block `1` and keeps it. The end of the round clears
the local labels, so the second computes the gain of `2` on the shared
labels, where `1` is still in block `0`, moves `2` to block `0`, and keeps
it. The commit under `SKIP` applies both moves with their logged gains and
returns `2`; the cut has not changed. -/
theorem commit_overstates_cut_drop_on_bridge :
    let log : List LogEntry :=
      [⟨⟨1, 0, 1⟩, 1⟩, bridgeCtx.sentinelEntry, ⟨⟨2, 1, 0⟩, 1⟩, bridgeCtx.sentinelEntry]
    (∃ idx t, runRounds bridgeCtx 0 50 [[1], [2]] (fun _ => false, idleThread, []) =
        .ok (idx, t, [(0, 1), (2, 3)]) ∧ t.log = log) ∧
      ∃ c', applyMoves bridgeEnv ⟨.skip, false⟩ [⟨0, log, [(0, 1), (2, 3)]⟩]
          (fun _ => Oracle.firstChoice) false [] (fun _ => false) bridgeStart (fun _ => false) [] =
          .ok ((2, false), c') ∧
        bridge.edgeCut c'.sh.blocks.part = bridge.edgeCut bridgePart :=
  ⟨⟨_, _, rfl, rfl⟩, _, rfl, by decide⟩

/-! ## Entries of moved_nodes that no move made -/

/-- Five nodes of weight `1` and the path `1 — 2 — 3` of edges of weight `1`;
nodes `0` and `4` keep both blocks from running empty. -/
def path3 : Graph :=
  ⟨5, fun _ => 1, fun v =>
    if v = 1 then [⟨2, 1, by decide⟩] else if v = 2 then [⟨1, 1, by decide⟩, ⟨3, 1, by decide⟩]
    else if v = 3 then [⟨2, 1, by decide⟩] else [], fun _ => by norm_num⟩

/-- Nodes `2` and `4` in block `1`, the others in block `0`. -/
def path3Part (v : Nat) : Nat := if v = 2 ∨ v = 4 then 1 else 0

/-- Rounds on `path3` with bound `10`, no move limit and the gain of
`connGain`. -/
def path3Ctx : ExploreCtx := ⟨path3, path3Part, 10, -1, connGain path3, 4294967295, 2147483647⟩

/-- The commit on `path3`, with the reference gain on the shared labels. -/
def path3Env : Env Unit :=
  { G := path3, upperBound := 10, postMoved := fun _ _ _ _ _ => ()
    computeGain := fun p v => connGain path3 p v (p v)
    computeGainActual := fun p v _ => ((connGain path3 p v (p v)).gain, (connGain path3 p v (p v)).maxGainer) }

/-- The counters of `path3Part`: three nodes in block `0`, two in block `1`. -/
def path3Counts (b : Nat) : Int := if b = 0 then 3 else if b = 1 then 2 else 0

/-- A thread before its first round on `path3Part`. -/
def path3Thread : Explorer :=
  ⟨fun _ => none, path3Counts, path3Counts, PQ.empty, [], [], Oracle.firstChoice, .done (0, 0, 0)⟩

/-- `path3Part` with exact counters. -/
def path3Start : Shared Unit := ⟨⟨path3Part, path3Counts, path3Counts⟩, ()⟩

/-- Thread `1` explores first, moving `2` in one round and `3` in the next;
then thread `0` moves `1`. The commit applies thread `0`'s move; for thread
`1`, node `2` clashes with `1`, moved by thread `0`, and is put into
`not_moved`; the neighbour scan of `3` then reads `moved_nodes[2]` through
`operator[]`, which inserts `(0, 0)` under `2`. At the end `moved_nodes`
has a key `2`, with block `0`, although `2` never left block `1`. -/
theorem commit_records_unmoved_neighbour :
    let log1 : List LogEntry :=
      [⟨⟨2, 1, 0⟩, 2⟩, path3Ctx.sentinelEntry, ⟨⟨3, 0, 1⟩, 1⟩, path3Ctx.sentinelEntry]
    let log0 : List LogEntry := [⟨⟨1, 0, 1⟩, 1⟩, path3Ctx.sentinelEntry]
    ∃ idx idx' t1 t0, runRounds path3Ctx 0 50 [[2], [3]] (fun _ => false, path3Thread, []) =
        .ok (idx, t1, [(0, 1), (2, 3)]) ∧ t1.log = log1 ∧
      runRounds path3Ctx 0 50 [[1]] (idx, path3Thread, []) = .ok (idx', t0, [(0, 1)]) ∧ t0.log = log0 ∧
      ∃ g c', applyMoves path3Env ⟨.skip, false⟩ [⟨0, log0, [(0, 1)]⟩, ⟨1, log1, [(0, 1), (2, 3)]⟩]
          (fun _ => Oracle.firstChoice) false [1] (fun _ => false) path3Start (fun _ => false) [] =
          .ok (g, c') ∧
        c'.movedNodes 2 = some (0, 0) ∧ c'.sh.blocks.part 2 = path3Part 2 := by
  intro log1 log0
  refine ⟨_, _, _, _, rfl, rfl, rfl, rfl, ?_⟩
  -- thread `0`'s commit, as an explicit state, so that thread `1` reads it cheaply
  have h0 : applyMovesThread path3Env ⟨.skip, false⟩ ⟨0, log0, [(0, 1)]⟩ false
      ⟨path3Start, fun _ => none, fun _ => false, []⟩ Oracle.firstChoice =
      .ok (1, ⟨⟨path3Start.blocks.move path3 1 0 1, ()⟩, Function.update (fun _ => none) 1 (some (0, 0)),
        fun _ => false, []⟩, Oracle.firstChoice) := rfl
  have h : (applyMoves path3Env ⟨.skip, false⟩ [⟨0, log0, [(0, 1)]⟩, ⟨1, log1, [(0, 1), (2, 3)]⟩]
      (fun _ => Oracle.firstChoice) false [1] (fun _ => false) path3Start (fun _ => false) []).toOption.map
      (fun r => (r.2.movedNodes 2, r.2.sh.blocks.part 2)) = some (some (0, 0), path3Part 2) := by
    simp only [applyMoves, entryAt, bind, Except.bind, List.getElem?_cons_zero, h0]
    decide!
  obtain ⟨⟨g, c'⟩, hr, hf⟩ := exists_ok_of_toOption h
  exact ⟨g, c', hr, (Prod.mk.inj hf).1, (Prod.mk.inj hf).2⟩

end Kahip
