import Kahip.History

/-!
# `local_search_from_one_node`

The `LOCAL_SEARCH` conflict policy: a fresh FM search on the shared graph,
seeded with one node, that moves through `relaxed_move_node` (`move_node`),
tracks the best cut, and rolls the moves after the best one back.

The priority queue's back-ends are not part of the sample; `PQ` models the
interface the search uses. The stop rule's verdicts, the random bits and the
queue's choice among entries of equal gain come from the `Oracle`.

Its last loop, `for (size_t i = 0; transpositions.size(); ++i)`, has no bound:
once a move is kept it reads past the end of `transpositions`. The model
returns `Fault.outOfBounds` there, so the search returns only when it keeps
no move, and then it leaves the shared state as it found it.
-/

namespace Kahip

/-- Modelled from the spec: the gain priority queue `refinement_pq` (its
back-ends `maxNodeHeap` and `bucket_pq` are not part of the sample), as its
entries `(node, gain)`. Which of several entries of maximal gain `deleteMax`
removes is left open. -/
structure PQ where
  entries : List (Nat × Int)
deriving Repr, DecidableEq

namespace PQ

def empty : PQ := ⟨[]⟩

def isEmpty (q : PQ) : Bool := q.entries.isEmpty

def contains (q : PQ) (v : Nat) : Bool := q.entries.any (·.1 == v)

def insert (q : PQ) (v : Nat) (g : Int) : PQ := ⟨q.entries ++ [(v, g)]⟩

def changeKey (q : PQ) (v : Nat) (g : Int) : PQ :=
  ⟨q.entries.map fun p => if p.1 = v then (v, g) else p⟩

def deleteNode (q : PQ) (v : Nat) : PQ := ⟨q.entries.filter (·.1 ≠ v)⟩

/-- `maxValue`: the largest gain in the queue. -/
def maxValue (q : PQ) : Int := ((q.entries.map (·.2)).max?).getD 0

/-- `deleteMax`: remove the `pick`-th entry (cyclically) among those of
maximal gain, and return its node. -/
def deleteMax (q : PQ) (pick : Nat) : Nat × PQ :=
  let tops := q.entries.filter (·.2 = q.maxValue)
  match tops[pick % tops.length]? with
  | some (v, _) => (v, q.deleteNode v)
  | none => (0, q)

/-- The nodes in the queue. -/
def nodes (q : PQ) : List Nat := q.entries.map (·.1)

@[simp] theorem nodes_empty : empty.nodes = [] := rfl

@[simp] theorem nodes_insert (q : PQ) (v : Nat) (g : Int) : (q.insert v g).nodes = q.nodes ++ [v] := by
  simp [insert, nodes]

@[simp] theorem nodes_changeKey (q : PQ) (v : Nat) (g : Int) : (q.changeKey v g).nodes = q.nodes := by
  simp only [changeKey, nodes, List.map_map]
  congr 1
  funext p
  by_cases h : p.1 = v <;> simp [h]

@[simp] theorem mem_nodes_deleteNode {q : PQ} {v x : Nat} :
    x ∈ (q.deleteNode v).nodes ↔ x ∈ q.nodes ∧ x ≠ v := by
  simp only [deleteNode, nodes, List.mem_map, List.mem_filter, decide_eq_true_eq]
  constructor
  · rintro ⟨p, ⟨hp, hv⟩, rfl⟩
    exact ⟨⟨p, hp, rfl⟩, hv⟩
  · rintro ⟨⟨p, hp, rfl⟩, hv⟩
    exact ⟨p, ⟨hp, hv⟩, rfl⟩

/-- From a non-empty queue, `deleteMax` takes the node of an entry of maximal
key and removes the node. -/
theorem deleteMax_entry {q : PQ} (hq : q.isEmpty = false) (pick : Nat) :
    ((q.deleteMax pick).1, q.maxValue) ∈ q.entries ∧ (q.deleteMax pick).2 = q.deleteNode (q.deleteMax pick).1 := by
  obtain ⟨p, hp, hm⟩ : ∃ p ∈ q.entries, p.2 = q.maxValue := by
    cases he : q.entries with
    | nil => simp [isEmpty, he] at hq
    | cons x xs =>
      have hmax : ((x :: xs).map (·.2)).max? = some ((xs.map (·.2)).foldl max x.2) := rfl
      obtain ⟨p, hp, hpm⟩ := List.mem_map.1 (List.max?_mem max_choice hmax)
      exact ⟨p, hp, by rw [hpm, maxValue, he, hmax]; rfl⟩
  have hlen : 0 < (q.entries.filter (·.2 = q.maxValue)).length :=
    List.length_pos_of_mem (List.mem_filter.2 ⟨hp, by simp [hm]⟩)
  have hget := List.getElem?_eq_getElem (Nat.mod_lt pick hlen)
  obtain ⟨hmem, htop⟩ := List.mem_filter.1 (List.getElem_mem (Nat.mod_lt pick hlen))
  have hpair : ∀ e ∈ q.entries, e.2 = q.maxValue → (e.1, q.maxValue) ∈ q.entries := fun e he h => by
    rw [← h]; exact he
  simp only [deleteMax, hget, List.get_eq_getElem]
  exact ⟨hpair _ hmem (of_decide_eq_true htop), trivial⟩

/-- From a non-empty queue, `deleteMax` takes a node of the queue and removes
it. -/
theorem deleteMax_spec {q : PQ} (hq : q.isEmpty = false) (pick : Nat) :
    (q.deleteMax pick).1 ∈ q.nodes ∧ (q.deleteMax pick).2 = q.deleteNode (q.deleteMax pick).1 :=
  have h := deleteMax_entry hq pick
  ⟨List.mem_map.2 ⟨_, h.1, rfl⟩, h.2⟩

theorem mem_insert {q : PQ} {v : Nat} {g : Int} {p : Nat × Int} :
    p ∈ (q.insert v g).entries ↔ p ∈ q.entries ∨ p = (v, g) := by
  simp [insert]

theorem mem_deleteNode {q : PQ} {v : Nat} {p : Nat × Int} :
    p ∈ (q.deleteNode v).entries ↔ p ∈ q.entries ∧ p.1 ≠ v := by
  simp [deleteNode]

theorem mem_changeKey {q : PQ} {v : Nat} {g : Int} {p : Nat × Int} (h : p ∈ (q.changeKey v g).entries) :
    (p ∈ q.entries ∧ p.1 ≠ v) ∨ p = (v, g) := by
  obtain ⟨p', hp', rfl⟩ := List.mem_map.1 h
  by_cases hv : p'.1 = v <;> simp [hv, hp']

theorem ne_of_contains_eq_false {q : PQ} {v : Nat} (h : q.contains v = false) {p : Nat × Int}
    (hp : p ∈ q.entries) : p.1 ≠ v := by
  simp only [contains, List.any_eq_false, beq_iff_eq] at h
  exact h p hp

end PQ

variable {β : Type} (e : Env β)

/-- The neighbour update of `move_node` for one out-edge target, on the
shared labels after the move. -/
def updateNeighbour (part : Nat → Nat) (qm : PQ × List Nat) (target : Nat) : PQ × List Nat :=
  let g := e.computeGain part target
  if qm.1.contains target then
    if 0 < g.extDegree then (qm.1.changeKey target g.gain, qm.2) else (qm.1.deleteNode target, qm.2)
  else if 0 < g.extDegree ∧ target ∉ qm.2 then (qm.1.insert target g.gain, target :: qm.2)
  else qm

/-- `move_node(td, moved, node, queue, commons)`: move `node` to the block
`compute_gain` proposes; on success, update the gains of its neighbours in
the queue and insert those not yet seen. -/
def moveNode (s : Shared β) (moved : List Nat) (node : Nat) (queue : PQ) :
    Except Fault (Bool × Shared β × PQ × List Nat) := do
  match (e.computeGain s.blocks.part node).maxGainer with
  | none => .error .assertion
  | some dst =>
    let (success, s') ← relaxedMoveNode e.toCtx s node (s.blocks.part node) dst
    if success then
      let qm := ((e.G.adj node).map (·.target)).foldl (updateNeighbour e s'.blocks.part) (queue, moved)
      pure (true, s', qm.1, qm.2)
    else pure (false, s', queue, moved)

/-- The loop state of `local_search_from_one_node`: shared state, oracle, the
queue, `moved_by_local_search`, `cut`, `best_cut`, `min_cut_index`,
`number_of_swaps`, and the moves made, newest first. -/
structure SearchState (β : Type) where
  sh : Shared β
  oracle : Oracle
  queue : PQ
  moved : List Nat
  cut : Int
  bestCut : Int
  minCutIndex : Int
  swaps : Int
  moves : List Move

/-- The forward loop, `k` more iterations allowed before `movements`
reaches `max_number_of_swaps`; returns the final state and `movements`. -/
def searchLoop : Nat → Nat → SearchState β → Except Fault (SearchState β × Nat)
  | 0, mv, r => .ok (r, mv)
  | k + 1, mv, r =>
    if r.queue.isEmpty then .ok (r, mv)
    else
      let (stop, oracle) := r.oracle.stop
      if stop then .ok ({ r with oracle }, mv)
      else do
        let gain := r.queue.maxValue
        let (pick, oracle) := oracle.pick
        let (node, queue) := r.queue.deleteMax pick
        let src := r.sh.blocks.part node
        let (success, sh, queue, moved) ← moveNode e r.sh r.moved node queue
        if success then
          let cut := r.cut - gain
          let (acceptEqual, oracle) := oracle.bit
          let better := decide (cut < r.bestCut) || (decide (cut = r.bestCut) && acceptEqual)
          searchLoop k (mv + 1)
            { sh, oracle, queue, moved, cut
              bestCut := if better then cut else r.bestCut
              minCutIndex := if better then r.swaps else r.minCutIndex
              swaps := r.swaps + 1
              moves := ⟨node, src, sh.blocks.part node⟩ :: r.moves }
        else searchLoop k (mv + 1) { r with sh, oracle, queue, moved }

/-- `std::numeric_limits<int>::max() / 2`, the notional starting cut. -/
def notionalCut : Int := 1073741823

/-- `local_search_from_one_node(td, moved_nodes, start_node,
max_number_of_swaps, compute_touched_partitions, touched_blocks)`: returns
`(initial_cut - best_cut, movements)`. -/
def localSearchFromOneNode (startNode maxSwaps : Nat) (computeTouched : Bool) (c : Commit β)
    (o : Oracle) : Except Fault ((Int × Nat) × Commit β × Oracle) := do
  let maxSwaps := (2 * maxSwaps + 100) % 2 ^ 32
  let g := e.computeGain c.sh.blocks.part startNode
  if g.extDegree = 0 then pure ((0, 0), c, o)
  else
    let (r, movements) ← searchLoop e maxSwaps 0
      { sh := c.sh, oracle := o, queue := PQ.empty.insert startNode g.gain, moved := []
        cut := notionalCut, bestCut := notionalCut, minCutIndex := -1, swaps := 0, moves := [] }
    let (sh, kept) ← rollBackwards e.toCtx (r.minCutIndex + 1).toNat r.moves r.sh
    if kept.isEmpty then
      let kept := kept.reverse
      pure ((notionalCut - r.bestCut, movements),
        { c with sh
                 movedNodes := markMoved c.movedNodes kept
                 touched := if computeTouched then touchAll c.touched kept else c.touched },
        r.oracle)
    else .error .outOfBounds

variable {e}

theorem moveNode_true {s s' : Shared β} {moved moved' : List Nat} {node : Nat} {q q' : PQ}
    (h : moveNode e s moved node q = .ok (true, s', q', moved')) :
    relaxedMoveNode e.toCtx s node (s.blocks.part node) (s'.blocks.part node) = .ok (true, s') := by
  unfold moveNode at h
  split at h
  · cases h
  · obtain ⟨⟨success, s1⟩, hm, h⟩ := bind_ok_iff.1 h
    cases success with
    | false => simp [pure, Except.pure] at h
    | true =>
      simp only [if_true, pure, Except.pure, Except.ok.injEq, Prod.mk.injEq, true_and] at h
      obtain ⟨rfl, -⟩ := h
      rwa [(relaxedMoveNode_true hm).2.2.2, Blocks.move_part, Function.update_same]

theorem moveNode_false {s s' : Shared β} {moved moved' : List Nat} {node : Nat} {q q' : PQ}
    (h : moveNode e s moved node q = .ok (false, s', q', moved')) : s' = s := by
  unfold moveNode at h
  split at h
  · cases h
  · obtain ⟨⟨success, s1⟩, hm, h⟩ := bind_ok_iff.1 h
    cases success with
    | false =>
      simp only [Bool.false_eq_true, if_false, pure, Except.pure, Except.ok.injEq,
        Prod.mk.injEq, true_and] at h
      rw [← h.1]
      exact relaxedMoveNode_false hm
    | true => simp [pure, Except.pure] at h

/-- The moves the search has made ran from the state it started in. -/
theorem searchLoop_run {s0 : Shared β} :
    ∀ {k mv : Nat} {r r' : SearchState β} {mv' : Nat}, searchLoop e k mv r = .ok (r', mv') →
      MovedAll e.toCtx s0 r.moves.reverse r.sh → MovedAll e.toCtx s0 r'.moves.reverse r'.sh
  | 0, _, r, r', mv', h => by cases h; exact id
  | k + 1, mv, r, r', mv', h => by
    simp only [searchLoop, Oracle.stop] at h
    split at h
    · cases h; exact id
    split at h
    · cases h; exact id
    · obtain ⟨⟨success, sh, q, moved⟩, hm, h⟩ := bind_ok_iff.1 h
      cases success with
      | false =>
        rw [moveNode_false hm] at h
        simp only [Bool.false_eq_true, if_false] at h
        exact fun hr => searchLoop_run h hr
      | true =>
        refine fun hr => searchLoop_run h ?_
        rw [List.reverse_cons]
        exact hr.snoc (moveNode_true hm)

/-- `local_search_from_one_node` returns only when it keeps no move, and then
it leaves labels and counters as it found them. -/
theorem localSearchFromOneNode_restores {startNode maxSwaps : Nat} {ct : Bool} {c c' : Commit β}
    {o o' : Oracle} {res : Int × Nat}
    (h : localSearchFromOneNode e startNode maxSwaps ct c o = .ok (res, c', o')) :
    c'.sh.blocks = c.sh.blocks := by
  simp only [localSearchFromOneNode] at h
  split at h
  · cases h; rfl
  · obtain ⟨⟨r, mv⟩, hr, h⟩ := bind_ok_iff.1 h
    obtain ⟨⟨sh, kept⟩, hrb, h⟩ := bind_ok_iff.1 h
    split at h
    · rename_i hk
      cases h
      have hrun := searchLoop_run hr (.nil c.sh)
      obtain ⟨s, sm, hrb', hsm, hs⟩ := rollBackwards_restores (r.minCutIndex + 1).toNat hrun rfl
      rw [hrb] at hrb'
      obtain ⟨rfl, hkept⟩ := Prod.mk.inj (Except.ok.inj hrb')
      simp only [List.isEmpty_iff] at hk
      rw [← hkept, hk] at hsm
      cases hsm
      exact hs
    · cases h

/-- A returning search is a run of the commit machine that pushes its moves
and pops all of them again: the moves in force are those it found. -/
theorem localSearchFromOneNode_steps {startNode maxSwaps : Nat} {ct : Bool} {c c' : Commit β}
    {o o' : Oracle} {res : Int × Nat}
    (h : localSearchFromOneNode e startNode maxSwaps ct c o = .ok (res, c', o')) (H : List Move) :
    Relation.ReflTransGen (CommitStep e.toCtx) (c.sh, H) (c'.sh, H) := by
  simp only [localSearchFromOneNode] at h
  split at h
  · cases h; exact .refl
  · obtain ⟨⟨r, mv⟩, hr, h⟩ := bind_ok_iff.1 h
    obtain ⟨⟨sh, kept⟩, hrb, h⟩ := bind_ok_iff.1 h
    split at h
    · rename_i hk
      cases h
      have hrun := (searchLoop_run hr (.nil c.sh)).steps H
      rw [List.reverse_reverse] at hrun
      have hback := rollBackwards_steps hrb H
      rw [show kept = [] from List.isEmpty_iff.1 hk, List.nil_append] at hback
      exact hrun.trans hback
    · cases h

/-! ## The spec's gain and a small instance -/

/-- Modelled from the spec: `compute_gain(node, from, to, ext_degree)` (the
bodies in the thread data and in `kway_graph_refinement_commons` are not
part of the sample), the spec's gain of moving `node` out of `src` to the
block it is most connected to, the first such block in out-edge order;
`none` (`INVALID_PARTITION`) when no neighbour is outside `src`. -/
def connGain (G : Graph) (part : Nat → Nat) (node src : Nat) : Gain :=
  let arcs := G.adj node
  let conn := fun b => ((arcs.filter (fun a => part a.target = b)).map (·.weight)).sum
  let ext := ((arcs.filter (fun a => part a.target ≠ src)).map (·.weight)).sum
  let best := arcs.foldl (fun acc a =>
    let b := part a.target
    if b = src then acc
    else match acc with
      | none => some b
      | some b' => if conn b' < conn b then some b else acc) none
  match best with
  | none => ⟨0, none, ext⟩
  | some b => ⟨conn b - conn src, some b, ext⟩

/-- Four nodes of weight `1` and one edge `1 — 2` of weight `1`; nodes `0`
and `3` keep both blocks from running empty. -/
def bridge : Graph :=
  ⟨4, fun _ => 1, fun v => if v = 1 then [⟨2, 1, by decide⟩] else if v = 2 then [⟨1, 1, by decide⟩] else [],
    fun _ => by norm_num⟩

/-- Nodes `0, 1` in block `0`, nodes `2, 3` in block `1`: the edge is cut. -/
def bridgePart (v : Nat) : Nat := if v < 2 then 0 else 1

/-- No equal cut accepted, no early stop, the first entry of maximal gain. -/
def Oracle.firstChoice : Oracle := ⟨fun _ => false, fun _ => false, fun _ => 0, fun _ => false⟩

/-- The commit on `bridge`, with the reference gain on the shared labels. -/
def bridgeEnv : Env Unit :=
  { G := bridge, upperBound := 10, postMoved := fun _ _ _ _ _ => ()
    computeGain := fun p v => connGain bridge p v (p v)
    computeGainActual := fun p v _ => ((connGain bridge p v (p v)).gain, (connGain bridge p v (p v)).maxGainer) }

/-- `bridgePart` with exact counters. -/
def bridgeStart : Shared Unit :=
  ⟨⟨bridgePart, fun b => if b < 2 then 2 else 0, fun b => if b < 2 then 2 else 0⟩, ()⟩

/-! ## The marking loop of the local search -/

/-- `local_search_from_one_node` on `bridge` from node `1`, on the shared
labels `bridgePart`: the search moves `1` to block `1`, which lowers the cut,
and keeps the move; the marking loop `for (size_t i = 0;
transpositions.size(); ++i)` then reads past the one kept move. -/
theorem local_search_marks_past_kept_move :
    localSearchFromOneNode bridgeEnv 1 0 false ⟨bridgeStart, fun _ => none, fun _ => false, []⟩
      Oracle.firstChoice = .error .outOfBounds :=
  rfl

end Kahip
