import Kahip.FastContract

/-!
# `parallel_fast_contract_clustering_multiple_threads`

With `num_threads = T > 1` every thread runs `task_without_buffers`: it
takes blocks of nodes from the shared cursor `offset` (a `uint32_t`,
advanced by `fetch_add`), adds each node's weight to its own
`my_block_infos`, and sends every arc between two clusters to the hash
table `source_cluster % T`, under the unsorted key of the pair, so that
every table holds the arcs leaving its own clusters, one entry per directed
pair. Once every thread is through, `task1` counts per source cluster the
entries of each table into `offsets`, a prefix sum turns the counts into
the ranges of the coarse nodes, and `task2` scatters every entry to the
next free slot of its source's range.

`my_block_infos` and `block_infos` hold `NodeWeight`s, added modulo
`2 ^ 32`; the tables hold `size_t`s, and the scatter converts each back to
an `EdgeWeight`.

The threads' steps interleave arbitrarily: one step is one atomic action
of one thread (a `fetch_add`, the test of the loop over a block with the
node's weight, one out-edge with its `insertOrUpdate`), and `runWorkers`
lets a schedule `sched` pick, at every step, which of the threads still
running moves. `task1` and `task2` run per table and write only the
counters and the ranges of the table's own source clusters, so they are
run one table after the other. The tables' iteration orders are left open:
`iterate i` is any reordering of the entries of table `i`.

What every interleaving keeps is `PoolInv`: the entries inserted so far and
the entries still pending (in the blocks not yet handed out, and in the
rest of each thread's block) are together every cut arc of the graph, once;
each table holds the sums of the inserted entries routed to it; the
summed and the pending node weights agree with the cluster weights modulo
`2 ^ 32`; and the cursor has not wrapped, which needs `n + T * block_size < 2^32`. When every
thread is done, nothing is pending, and the scatter writes every slot of
the edge array once, building the quotient (`shardedContract_spec`).
-/

namespace Kahip

open Finset

/-- Modelled from the spec: `get_uint64_from_pair_unsorted(a, b)` packs the
pair into one key in its own order (it is not part of the sample); the key
is the pair. -/
def pairUnsorted (a b : Nat) : Nat × Nat := (a, b)

/-- Where one thread of `task_without_buffers` stands: at the `fetch_add`,
at the test `node != end` of its block `[node, end)`, in the loop over the
out-edges of `node` with the edges `rest` still to visit and `handle_ptr`,
or returned. -/
inductive WorkerPc where
  | fetch
  | node (node stop : Nat)
  | arcs (node stop : Nat) (handle : Option Nat) (rest : List Arc)
  | done

/-- A thread returned. -/
def WorkerPc.isDone : WorkerPc → Bool
  | .done => true
  | _ => false

/-- One thread: its `my_block_infos` and where it stands. -/
structure Worker where
  infos : Nat → Nat
  pc : WorkerPc

/-- The shared state of the hashing phase: the cursor `offset`, the tables
`new_edges[i]`, and the threads. -/
structure Pool where
  offset : Nat
  tables : Nat → EdgeTable
  workers : Nat → Worker

/-- Thread `i` moves to `w`. -/
def Pool.setWorker (p : Pool) (i : Nat) (w : Worker) : Pool :=
  { p with workers := Function.update p.workers i w }

/-- Before the threads start: the cursor at `0`, every table empty, every
thread at its first `fetch_add` with `my_block_infos` all `0`. -/
def poolStart : Pool := ⟨0, fun _ => ⟨[]⟩, fun _ => ⟨fun _ => 0, .fetch⟩⟩

section Workers

variable (G : Graph) (c : Nat → Nat) (T bs : Nat)

/-- One atomic step of thread `i`. At the `fetch_add` it takes the block
`[begin, end)`, `end` cut at the last node, or returns once `begin` is past
it; at the test of the loop it moves on to the next block or adds the
node's weight and starts on its out-edges; an out-edge between two
clusters is inserted into the table that `handle_ptr` picks on the node's
first such edge, `source_cluster % T`. A `node` past the last one reads
`coarse_mapping` out of bounds. -/
def workerStep (p : Pool) (i : Nat) : Except Fault Pool :=
  let w := p.workers i
  match w.pc with
  | .fetch =>
    let begin := p.offset
    let stop := (begin + bs) % 2 ^ 32
    let stop := if stop ≤ G.n then stop else G.n
    let p := { p with offset := (begin + bs) % 2 ^ 32 }
    if G.n ≤ begin then .ok (p.setWorker i { w with pc := .done })
    else .ok (p.setWorker i { w with pc := .node begin stop })
  | .node node stop =>
    if node = stop then .ok (p.setWorker i { w with pc := .fetch })
    else if node < G.n then
      .ok (p.setWorker i ⟨Function.update w.infos (c node) (toNodeWeight (w.infos (c node) + G.nodeWeight node)),
        .arcs node stop none (G.adj node)⟩)
    else .error .outOfBounds
  | .arcs node stop _ [] => .ok (p.setWorker i { w with pc := .node ((node + 1) % 2 ^ 32) stop })
  | .arcs node stop handle (x :: rest) =>
    if c node ≠ c x.target then
      let h := handle.getD (c node % T)
      let t := (p.tables h).insertOrUpdate (pairUnsorted (c node) (c x.target)) x.weight
      .ok ({ p with tables := Function.update p.tables h t }.setWorker i
        { w with pc := .arcs node stop (some h) rest })
    else .ok (p.setWorker i { w with pc := .arcs node stop handle rest })
  | .done => .ok p

/-- The threads among `0, ..., T - 1` that have not returned. -/
def liveWorkers (p : Pool) : List Nat := (List.range T).filter fun i => !(p.workers i).pc.isDone

/-- `submit_for_all(task, ...)` up to the join, for at most `fuel` steps:
while some thread runs, the schedule picks one of those running, by
`sched`, and it makes one step. -/
def runWorkers (sched : Nat → Nat) : Nat → Pool → Except Fault Pool
  | 0, _ => .error .diverges
  | fuel + 1, p =>
    match liveWorkers T p with
    | [] => .ok p
    | live => do
      let p ← workerStep G c T bs p (live.getD (sched fuel % live.length) 0)
      runWorkers sched fuel p

end Workers

/-! ## Building the coarse graph from the tables -/

/-- The combine of `submit_for_all(task, ...)`: the threads'
`my_block_infos` added up, `block_infos[i] += cur_block_infos[i]` in
`NodeWeight`, thread after thread. -/
def Pool.blockInfos (T : Nat) (p : Pool) (a : Nat) : Nat :=
  (List.range T).foldl (fun s i => toNodeWeight (s + (p.workers i).infos a)) 0

/-- The combine is the sum of the threads' `my_block_infos`, as a
`NodeWeight`. -/
theorem Pool.blockInfos_eq (T : Nat) (p : Pool) (a : Nat) :
    p.blockInfos T a = toNodeWeight (∑ i in range T, (p.workers i).infos a) := by
  induction T with
  | zero => rfl
  | succ T ih =>
    rw [Pool.blockInfos, List.range_succ, List.foldl_append, ← Pool.blockInfos, ih, sum_range_succ]
    exact toNodeWeight_add_left _ _

/-- The entries of the tables, table after table, each in its iteration
order. -/
def tableEntries (T : Nat) (iterate : Nat → List ((Nat × Nat) × Nat) → List ((Nat × Nat) × Nat))
    (p : Pool) : List ((Nat × Nat) × Nat) :=
  (List.range T).flatMap fun i => iterate i (p.tables i).entries

/-- `task1`: `++offsets[edge.first]` for every entry. -/
def countEntries (offsets : Nat → Nat) (entries : List ((Nat × Nat) × Nat)) : Nat → Nat :=
  entries.foldl (fun o e => Function.update o e.1.1 (o e.1.1 + 1)) offsets

/-- The loop of the prefix sum: `offsets`, `nodes[i].firstEdge`,
`nodes[i].weight` and `cur_prefix`. -/
structure PrefixSum where
  offsets : Nat → Nat
  firstEdge : Nat → Nat
  weight : Nat → Nat
  cur : Nat

/-- One round of the prefix sum, for coarse node `i`. -/
def prefixStep (blockInfos : Nat → Nat) (s : PrefixSum) (i : Nat) : PrefixSum :=
  ⟨Function.update s.offsets i s.cur, Function.update s.firstEdge i s.cur,
    Function.update s.weight i (blockInfos i), s.cur + s.offsets i⟩

/-- The loop of `task2`: `offsets`, the edge array, and the slots written,
in order. -/
structure Scatter where
  offsets : Nat → Nat
  edges : Nat → Arc
  written : List Nat

/-- `task2` for one entry: its arc goes to slot `offsets[edge.first]`, its
weight converted to `EdgeWeight`, and the slot moves on. -/
def scatterEntry (s : Scatter) (e : (Nat × Nat) × Nat) : Scatter :=
  ⟨Function.update s.offsets e.1.1 (s.offsets e.1.1 + 1),
    Function.update s.edges (s.offsets e.1.1) (Arc.ofWeight e.1.2 e.2), s.written ++ [s.offsets e.1.1]⟩

/-- `task2` over every entry, from the `offsets` of the prefix sum into
`edges(num_edges)`. -/
def scatterAll (offsets : Nat → Nat) (entries : List ((Nat × Nat) × Nat)) : Scatter :=
  entries.foldl scatterEntry ⟨offsets, fun _ => ⟨0, 0, by decide⟩, []⟩

/-- `coarser.start_construction(nodes, edges)` from finished arrays: `n'`
nodes with their `firstEdge` (and the sentinel at `n'`) and `NodeWeight`s,
and `m` edges. -/
def Builder.ofArrays (n' : Nat) (firstEdge weight : Nat → Nat) (m : Nat) (edges : Nat → Arc) : Builder :=
  ⟨⟨n', n', firstEdge, fun v => toNodeWeight (weight v), fun _ => 0, fun _ => 0, 0, fun _ => toNodeWeight_lt _⟩,
    ⟨m, m, edges⟩⟩

/-- The offsets, the prefix sum and the scatter, over the entries of the
tables. -/
def coarseArrays (T n' : Nat) (iterate : Nat → List ((Nat × Nat) × Nat) → List ((Nat × Nat) × Nat))
    (p : Pool) : PrefixSum × Scatter :=
  let entries := tableEntries T iterate p
  let s := (List.range n').foldl (prefixStep (p.blockInfos T))
    ⟨countEntries (fun _ => 0) entries, fun _ => 0, fun _ => 0, 0⟩
  (s, scatterAll s.offsets entries)

/-- `parallel_fast_contract_clustering_multiple_threads` on `T` threads:
the hashing phase under the schedule `sched`, for at most `fuel` steps,
then the offsets, the prefix sum and the scatter, `start_construction`,
and `ALWAYS_ASSERT(!graph_allready_partitioned)`. The labels are not
copied to the coarse graph (that loop is commented out). -/
def shardedContract (G : Graph) (c : Nat → Nat) (T : Nat) (allreadyPartitioned : Bool) (n' : Nat)
    (iterate : Nat → List ((Nat × Nat) × Nat) → List ((Nat × Nat) × Nat)) (sched : Nat → Nat)
    (fuel : Nat) : Except Fault Builder := do
  let p ← runWorkers G c T (blockSize G.n) sched fuel poolStart
  let (s, sc) := coarseArrays T n' iterate p
  if allreadyPartitioned then .error .assertion
  else pure (Builder.ofArrays n' (Function.update s.firstEdge n' s.cur) s.weight
    (tableEntries T iterate p).length sc.edges)

/-! ## What the threads have left to do -/

/-- The arcs of `node` among `arcs` that join two clusters, under their
unsorted keys. -/
def arcEntries (c : Nat → Nat) (node : Nat) (arcs : List Arc) : List ((Nat × Nat) × Int) :=
  arcs.filterMap fun x => if c node ≠ c x.target then some (pairUnsorted (c node) (c x.target), x.weight) else none

namespace Graph

variable (G : Graph) (c : Nat → Nat)

/-- The cut arcs of the nodes `[lo, hi)`. -/
def rangeEntries (lo hi : Nat) : List ((Nat × Nat) × Int) :=
  (List.range' lo (hi - lo)).flatMap fun v => arcEntries c v (G.adj v)

/-- The weight of the nodes of cluster `a` in `[lo, hi)`. -/
def rangeWeight (a lo hi : Nat) : Nat :=
  ((List.range' lo (hi - lo)).map fun v => if c v = a then G.nodeWeight v else 0).sum

/-- The steps a thread makes on the nodes `[lo, hi)`: one per node, one
per out-edge, and one to leave the node. -/
def rangeCost (lo hi : Nat) : Nat := ((List.range' lo (hi - lo)).map fun v => (G.adj v).length + 2).sum

end Graph

theorem range'_split {lo mid hi : Nat} (h1 : lo ≤ mid) (h2 : mid ≤ hi) :
    List.range' lo (hi - lo) = List.range' lo (mid - lo) ++ List.range' mid (hi - mid) := by
  have h := List.range'_append_1 lo (mid - lo) (hi - mid)
  rw [Nat.add_sub_cancel' h1, show hi - mid + (mid - lo) = hi - lo by omega] at h
  exact h.symm

theorem range'_first {lo hi : Nat} (h : lo < hi) : List.range' lo (hi - lo) = lo :: List.range' (lo + 1) (hi - (lo + 1)) := by
  rw [show hi - lo = (hi - (lo + 1)) + 1 by omega, List.range'_succ]

section Ranges

variable (G : Graph) (c : Nat → Nat) {lo mid hi : Nat}

theorem rangeEntries_split (h1 : lo ≤ mid) (h2 : mid ≤ hi) :
    G.rangeEntries c lo hi = G.rangeEntries c lo mid ++ G.rangeEntries c mid hi := by
  simp only [Graph.rangeEntries, range'_split h1 h2, List.flatMap_append]

theorem rangeWeight_split (a : Nat) (h1 : lo ≤ mid) (h2 : mid ≤ hi) :
    G.rangeWeight c a lo hi = G.rangeWeight c a lo mid + G.rangeWeight c a mid hi := by
  simp only [Graph.rangeWeight, range'_split h1 h2, List.map_append, List.sum_append]

theorem rangeCost_split (h1 : lo ≤ mid) (h2 : mid ≤ hi) :
    G.rangeCost lo hi = G.rangeCost lo mid + G.rangeCost mid hi := by
  simp only [Graph.rangeCost, range'_split h1 h2, List.map_append, List.sum_append]

theorem rangeEntries_first (h : lo < hi) :
    G.rangeEntries c lo hi = arcEntries c lo (G.adj lo) ++ G.rangeEntries c (lo + 1) hi := by
  simp only [Graph.rangeEntries, range'_first h, List.flatMap_cons]

theorem rangeWeight_first (a : Nat) (h : lo < hi) :
    G.rangeWeight c a lo hi = (if c lo = a then G.nodeWeight lo else 0) + G.rangeWeight c a (lo + 1) hi := by
  simp only [Graph.rangeWeight, range'_first h, List.map_cons, List.sum_cons]

theorem rangeCost_first (h : lo < hi) : G.rangeCost lo hi = (G.adj lo).length + 2 + G.rangeCost (lo + 1) hi := by
  simp only [Graph.rangeCost, range'_first h, List.map_cons, List.sum_cons]

@[simp] theorem rangeEntries_empty (h : hi ≤ lo) : G.rangeEntries c lo hi = [] := by
  simp [Graph.rangeEntries, Nat.sub_eq_zero_of_le h]

@[simp] theorem rangeWeight_empty (a : Nat) (h : hi ≤ lo) : G.rangeWeight c a lo hi = 0 := by
  simp [Graph.rangeWeight, Nat.sub_eq_zero_of_le h]

@[simp] theorem rangeCost_empty (h : hi ≤ lo) : G.rangeCost lo hi = 0 := by
  simp [Graph.rangeCost, Nat.sub_eq_zero_of_le h]

theorem rangeWeight_all (a : Nat) : G.rangeWeight c a 0 G.n = G.clusterWeight c a := by
  rw [Graph.rangeWeight, Graph.clusterWeight, sum_range_eq_list, Nat.sub_zero, List.range_eq_range']

theorem rangeCost_all : G.rangeCost 0 G.n = G.numberOfEdges + 2 * G.n := by
  rw [Graph.rangeCost, Graph.numberOfEdges, sum_range_eq_list, Nat.sub_zero, ← List.range_eq_range',
    List.sum_map_add, List.map_const', List.sum_replicate, List.length_range, smul_eq_mul, Nat.mul_comm]

end Ranges

/-- What a thread still has to insert: the cut arcs of the rest of its
block, the rest of its current node's out-edges first. -/
def WorkerPc.pending (G : Graph) (c : Nat → Nat) : WorkerPc → List ((Nat × Nat) × Int)
  | .node v stop => G.rangeEntries c v stop
  | .arcs v stop _ rest => arcEntries c v rest ++ G.rangeEntries c (v + 1) stop
  | _ => []

/-- The weight of the nodes of cluster `a` whose weight a thread still has
to add. -/
def WorkerPc.pendingWeight (G : Graph) (c : Nat → Nat) (a : Nat) : WorkerPc → Nat
  | .node v stop => G.rangeWeight c a v stop
  | .arcs v stop _ _ => G.rangeWeight c a (v + 1) stop
  | _ => 0

/-- The steps a thread has left before it returns, if it gets no further
block. -/
def WorkerPc.cost (G : Graph) : WorkerPc → Nat
  | .fetch => 1
  | .node v stop => G.rangeCost v stop + 2
  | .arcs v stop _ rest => rest.length + 1 + G.rangeCost (v + 1) stop + 2
  | .done => 0

/-- Where a thread can stand: inside a block that ends at or before the
last node, with `handle_ptr` unset or at the table of the node's cluster. -/
def WorkerPc.Shaped (n T : Nat) (c : Nat → Nat) : WorkerPc → Prop
  | .node v stop => v ≤ stop ∧ stop ≤ n
  | .arcs v stop h _ => v < stop ∧ stop ≤ n ∧ (h = none ∨ h = some (c v % T))
  | _ => True

/-- The number of threads among `0, ..., T - 1` that have returned. -/
def doneCount (T : Nat) (p : Pool) : Nat := ∑ j in range T, if (p.workers j).pc.isDone then 1 else 0

/-- A change to one thread changes a sum over the threads by that thread's
term. -/
theorem sum_setWorker {β : Type} [AddCommMonoid β] {T i : Nat} (hi : i < T) (p : Pool) (w : Worker)
    (F : Worker → β) :
    ∑ j in range T, F ((p.setWorker i w).workers j) + F (p.workers i) = ∑ j in range T, F (p.workers j) + F w := by
  have hm : i ∈ range T := mem_range.2 hi
  have hrest : ∑ j in (range T).erase i, F (Function.update p.workers i w j) =
      ∑ j in (range T).erase i, F (p.workers j) :=
    sum_congr rfl fun j hj => by rw [Function.update_noteq (ne_of_mem_erase hj)]
  simp only [Pool.setWorker]
  rw [← add_sum_erase _ _ hm, ← add_sum_erase _ _ hm, Function.update_same, hrest]
  ac_rfl

/-- A conserved sum stays conserved when one summand changes and the rest
of the sum makes up for it. -/
theorem add_transfer {β : Type} [AddCancelCommMonoid β] {A A' S S' old new total : β}
    (hS : S' + old = S + new) (hloc : A' + new = A + old) (h : A + S = total) : A' + S' = total := by
  refine add_right_cancel (b := old) ?_
  rw [add_assoc, hS, ← add_assoc, add_right_comm, hloc, add_right_comm, h]

section Pool

variable (G : Graph) (c : Nat → Nat) (T bs : Nat)

/-- What every interleaving keeps, with `f` the `fetch_add`s so far and
`ins` the entries inserted so far: the cursor has moved `f` blocks and has
not wrapped; the threads that returned did so on a block past the last
node, after every block was handed out; the inserted and the pending cut
arcs are every cut arc once, and the summed and the pending node weights
every node weight, modulo `2 ^ 32`; each table holds the inserted entries of
its clusters. -/
structure PoolInv (p : Pool) (f : Nat) (ins : List ((Nat × Nat) × Int)) : Prop where
  offset : p.offset = f * bs % 2 ^ 32
  doneLe : doneCount T p ≤ f
  blocks : (f - doneCount T p) * bs < G.n + bs
  past : 0 < doneCount T p → G.n ≤ (f - doneCount T p) * bs
  entries : (↑(ins ++ G.rangeEntries c (f * bs) G.n) : Multiset ((Nat × Nat) × Int)) +
      ∑ j in range T, (↑((p.workers j).pc.pending G c) : Multiset ((Nat × Nat) × Int)) =
        ↑(G.rangeEntries c 0 G.n)
  weight : ∀ a, toNodeWeight (∑ j in range T, (p.workers j).infos a + G.rangeWeight c a (f * bs) G.n +
      ∑ j in range T, (p.workers j).pc.pendingWeight G c a) = toNodeWeight (G.clusterWeight c a)
  tables : ∀ j, TableInv (p.tables j) (ins.filter fun e => e.1.1 % T = j)
  shaped : ∀ j < T, (p.workers j).pc.Shaped G.n T c

/-- The steps left in the whole hashing phase. -/
def poolCost (p : Pool) (f : Nat) : Nat :=
  ∑ j in range T, (p.workers j).pc.cost G + G.rangeCost (f * bs) G.n + 2 * (G.n - f * bs)

theorem poolInv_start (hbs : 0 < bs) : PoolInv G c T bs poolStart 0 [] where
  offset := by simp [poolStart]
  doneLe := by simp [doneCount, poolStart, WorkerPc.isDone]
  blocks := by simp [doneCount, poolStart, WorkerPc.isDone]; omega
  past := by simp [doneCount, poolStart, WorkerPc.isDone]
  entries := by simp [poolStart, WorkerPc.pending]
  weight a := by simp [poolStart, WorkerPc.pendingWeight, rangeWeight_all]
  tables j := by simpa using tableInv_empty
  shaped j _ := trivial

theorem poolCost_start : poolCost G T bs poolStart 0 = T + G.numberOfEdges + 4 * G.n := by
  simp only [poolCost, poolStart, WorkerPc.cost, sum_const, card_range, smul_eq_mul, mul_one, Nat.zero_mul,
    Nat.sub_zero, rangeCost_all]
  omega

theorem arcEntries_cons (v : Nat) (x : Arc) (rest : List Arc) :
    arcEntries c v (x :: rest) = if c v ≠ c x.target then
      (pairUnsorted (c v) (c x.target), x.weight) :: arcEntries c v rest else arcEntries c v rest := by
  by_cases h : c v ≠ c x.target <;> simp [arcEntries, List.filterMap_cons, h]

theorem doneCount_setWorker {p : Pool} {i : Nat} (hi : i < T) (w : Worker) (o : Nat) (t : Nat → EdgeTable) :
    doneCount T ({ p with offset := o, tables := t }.setWorker i w) + (if (p.workers i).pc.isDone then 1 else 0) =
      doneCount T p + if w.pc.isDone then 1 else 0 :=
  sum_setWorker hi { p with offset := o, tables := t } w fun w => if w.pc.isDone then 1 else 0

/-- A running thread leaves room for one more `fetch_add`. -/
theorem doneCount_lt {p : Pool} {i : Nat} (hi : i < T) (hlive : (p.workers i).pc.isDone = false) :
    doneCount T p < T := by
  have h := doneCount_setWorker T hi (p := p) ⟨fun _ => 0, .done⟩ p.offset p.tables
  have hle : doneCount T ({ p with offset := p.offset, tables := p.tables }.setWorker i ⟨fun _ => 0, .done⟩) ≤ T := by
    refine (sum_le_card_nsmul _ _ 1 fun j _ => ?_).trans (by simp)
    split <;> omega
  rw [hlive] at h
  simp only [WorkerPc.isDone, if_true, Bool.false_eq_true, if_false] at h
  omega

variable {G c T bs} in
/-- One thread's step keeps the invariant if the cursor's facts hold
afterwards and the step only moves work between the thread's pending work,
the blocks not yet handed out, and what is done. -/
theorem PoolInv.of_step {p : Pool} {f : Nat} {ins : List ((Nat × Nat) × Int)} (hinv : PoolInv G c T bs p f ins)
    {i : Nat} (hi : i < T) {w : Worker} {o : Nat} {t : Nat → EdgeTable} {f' : Nat}
    {ins' : List ((Nat × Nat) × Int)}
    (hoff : o = f' * bs % 2 ^ 32)
    (hdoneLe : doneCount T ({ p with offset := o, tables := t }.setWorker i w) ≤ f')
    (hblocks : (f' - doneCount T ({ p with offset := o, tables := t }.setWorker i w)) * bs < G.n + bs)
    (hpast : 0 < doneCount T ({ p with offset := o, tables := t }.setWorker i w) →
      G.n ≤ (f' - doneCount T ({ p with offset := o, tables := t }.setWorker i w)) * bs)
    (hent : (↑(ins' ++ G.rangeEntries c (f' * bs) G.n) : Multiset ((Nat × Nat) × Int)) + ↑(w.pc.pending G c) =
      ↑(ins ++ G.rangeEntries c (f * bs) G.n) + ↑((p.workers i).pc.pending G c))
    (hweight : ∀ a, toNodeWeight (w.infos a + G.rangeWeight c a (f' * bs) G.n + w.pc.pendingWeight G c a) =
      toNodeWeight ((p.workers i).infos a + G.rangeWeight c a (f * bs) G.n + (p.workers i).pc.pendingWeight G c a))
    (htables : ∀ j, TableInv (t j) (ins'.filter fun e => e.1.1 % T = j)) (hshaped : w.pc.Shaped G.n T c) :
    PoolInv G c T bs ({ p with offset := o, tables := t }.setWorker i w) f' ins' where
  offset := hoff
  doneLe := hdoneLe
  blocks := hblocks
  past := hpast
  entries := add_transfer (sum_setWorker hi { p with offset := o, tables := t } w
    fun w => (↑(w.pc.pending G c) : Multiset ((Nat × Nat) × Int))) hent hinv.entries
  weight a := by
    have h1 := sum_setWorker hi { p with offset := o, tables := t } w fun w => w.infos a
    have h2 := sum_setWorker hi { p with offset := o, tables := t } w fun w => w.pc.pendingWeight G c a
    dsimp only at h1 h2
    exact (toNodeWeight_cancel (by omega) (hweight a).symm).trans (hinv.weight a)
  tables := htables
  shaped j hj := by
    by_cases h : j = i
    · subst h; simpa [Pool.setWorker] using hshaped
    · simpa [Pool.setWorker, Function.update_noteq h] using hinv.shaped j hj

/-- The cost of the phase falls if the thread's own cost and that of the
blocks not handed out fall together. -/
theorem poolCost_of_step {p : Pool} {f : Nat} {i : Nat} (hi : i < T) {w : Worker} {o : Nat}
    {t : Nat → EdgeTable} {f' : Nat}
    (hloc : w.pc.cost G + G.rangeCost (f' * bs) G.n + 2 * (G.n - f' * bs) <
      (p.workers i).pc.cost G + G.rangeCost (f * bs) G.n + 2 * (G.n - f * bs)) :
    poolCost G T bs ({ p with offset := o, tables := t }.setWorker i w) f' < poolCost G T bs p f := by
  have h := sum_setWorker hi { p with offset := o, tables := t } w fun w => w.pc.cost G
  dsimp only at h
  unfold poolCost
  omega

variable {G c T bs} in
/-- A step inside a block, which leaves the cursor alone and the thread
running, keeps the invariant and lowers the cost if it only moves work from
the thread's pending work to what is inserted. -/
theorem PoolInv.of_inner_step {p : Pool} {f : Nat} {ins : List ((Nat × Nat) × Int)}
    (hinv : PoolInv G c T bs p f ins) {i : Nat} (hi : i < T) (hlive : (p.workers i).pc.isDone = false)
    {w : Worker} {t : Nat → EdgeTable} {ins' : List ((Nat × Nat) × Int)} (hw : w.pc.isDone = false)
    (hent : (↑(ins' ++ w.pc.pending G c) : Multiset ((Nat × Nat) × Int)) = ↑(ins ++ (p.workers i).pc.pending G c))
    (hweight : ∀ a, toNodeWeight (w.infos a + w.pc.pendingWeight G c a) =
      toNodeWeight ((p.workers i).infos a + (p.workers i).pc.pendingWeight G c a))
    (htables : ∀ j, TableInv (t j) (ins'.filter fun e => e.1.1 % T = j)) (hshaped : w.pc.Shaped G.n T c)
    (hcost : w.pc.cost G < (p.workers i).pc.cost G) :
    PoolInv G c T bs ({ p with offset := p.offset, tables := t }.setWorker i w) f ins' ∧
      poolCost G T bs ({ p with offset := p.offset, tables := t }.setWorker i w) f < poolCost G T bs p f := by
  have h := doneCount_setWorker T hi (p := p) w p.offset t
  rw [hlive, hw] at h
  simp only [Bool.false_eq_true, if_false, Nat.add_zero] at h
  refine ⟨hinv.of_step hi hinv.offset (h ▸ hinv.doneLe) (h ▸ hinv.blocks) (h ▸ hinv.past) ?_
    (fun a => toNodeWeight_cancel (by omega) (hweight a).symm) htables hshaped,
    poolCost_of_step G T bs hi (by omega)⟩
  simp only [← Multiset.coe_add] at hent ⊢
  rw [add_right_comm, hent, add_right_comm]

variable {G c T bs} in
/-- The `fetch_add` of a running thread: the cursor is below `2 ^ 32`, so
`begin` is `f * bs`; past the last node the thread returns, else it takes the
block `[f * bs, end)`. -/
theorem PoolInv.fetch (hbs : 0 < bs) (hwrap : G.n + T * bs < 2 ^ 32) {p : Pool} {f : Nat}
    {ins : List ((Nat × Nat) × Int)} (hinv : PoolInv G c T bs p f ins) {i : Nat} (hi : i < T)
    (hlive : (p.workers i).pc.isDone = false) (hpc : (p.workers i).pc = .fetch) :
    ∃ p' f' ins', workerStep G c T bs p i = .ok p' ∧ PoolInv G c T bs p' f' ins' ∧
      poolCost G T bs p' f' < poolCost G T bs p f := by
  unfold workerStep
  have hcount : ∀ (w : Worker) o t, doneCount T ({ p with offset := o, tables := t }.setWorker i w) =
      doneCount T p + if w.pc.isDone then 1 else 0 := fun w o t => by
    have h := doneCount_setWorker T hi (p := p) w o t
    rw [hlive] at h
    simpa using h
  have hdlt := doneCount_lt T hi hlive
  have hd := hinv.doneLe
  have hb := hinv.blocks
  have hfd : (f - doneCount T p) * bs + doneCount T p * bs = f * bs := by
    rw [← Nat.add_mul, Nat.sub_add_cancel hd]
  have hdT : doneCount T p * bs + bs ≤ T * bs := by
    rw [← Nat.succ_mul]; exact Nat.mul_le_mul_right _ hdlt
  have hfb : f * bs < 2 ^ 32 := by omega
  have hoff : p.offset = f * bs := by rw [hinv.offset, Nat.mod_eq_of_lt hfb]
  have hnext : (f * bs + bs) % 2 ^ 32 = (f + 1) * bs % 2 ^ 32 := by rw [Nat.succ_mul]
  simp only [hpc, hoff]
  by_cases hn : G.n ≤ f * bs
  · -- past the last node: the thread returns
    have hn' : G.n ≤ (f + 1) * bs := by rw [Nat.succ_mul]; omega
    rw [if_pos hn]
    refine ⟨_, f + 1, ins, rfl, hinv.of_step hi hnext ?_ ?_ ?_ ?_ ?_ hinv.tables trivial,
      poolCost_of_step G T bs hi ?_⟩
    · rw [hcount]; simp only [WorkerPc.isDone, if_true]; omega
    · rw [hcount]; simp only [WorkerPc.isDone, if_true, Nat.add_sub_add_right]; exact hb
    · intro _
      rw [hcount]
      simp only [WorkerPc.isDone, if_true, Nat.add_sub_add_right]
      rcases Nat.eq_zero_or_pos (doneCount T p) with h0 | h0
      · rw [h0, Nat.sub_zero]; exact hn
      · exact hinv.past h0
    · simp [rangeEntries_empty G c hn, rangeEntries_empty G c hn', hpc, WorkerPc.pending]
    · intro a; simp [rangeWeight_empty G c a hn, rangeWeight_empty G c a hn', hpc, WorkerPc.pendingWeight]
    · simp only [hpc, WorkerPc.cost, rangeCost_empty G hn, rangeCost_empty G hn']; omega
  · -- a block `[f * bs, stop)`, `stop` the end of the block or the last node
    push_neg at hn
    have hd0 : doneCount T p = 0 := by
      rcases Nat.eq_zero_or_pos (doneCount T p) with h0 | h0
      · exact h0
      · have := hinv.past h0; omega
    have hfb' : f * bs + bs < 2 ^ 32 := by omega
    rw [if_neg (by omega), Nat.mod_eq_of_lt hfb']
    set stop := if f * bs + bs ≤ G.n then f * bs + bs else G.n with hstop
    have hsplit : ∀ {α : Type} (F : Nat → Nat → α) (glue : α → α → α), (∀ lo mid hi, lo ≤ mid → mid ≤ hi →
        F lo hi = glue (F lo mid) (F mid hi)) → (∀ lo hi, hi ≤ lo → F lo hi = F hi hi) →
        F (f * bs) G.n = glue (F (f * bs) stop) (F ((f + 1) * bs) G.n) := fun F glue hF hE => by
      rw [Nat.succ_mul]
      by_cases hfit : f * bs + bs ≤ G.n
      · rw [hstop, if_pos hfit]; exact hF _ _ _ (by omega) hfit
      · rw [hstop, if_neg hfit, hE (f * bs + bs) G.n (by omega)]
        exact hF _ _ _ (by omega) le_rfl
    refine ⟨_, f + 1, ins, rfl, hinv.of_step hi (by rw [Nat.succ_mul, Nat.mod_eq_of_lt hfb']) ?_ ?_ ?_ ?_ ?_
      hinv.tables ?_, poolCost_of_step G T bs hi ?_⟩
    · rw [hcount]; simp only [WorkerPc.isDone, Bool.false_eq_true, if_false, Nat.add_zero]; omega
    · rw [hcount]; simp only [WorkerPc.isDone, Bool.false_eq_true, if_false, Nat.add_zero]
      rw [hd0, Nat.sub_zero, Nat.succ_mul]; omega
    · rw [hcount]; simp only [WorkerPc.isDone, Bool.false_eq_true, if_false, Nat.add_zero]
      rw [hd0]; omega
    · have := hsplit (G.rangeEntries c) (· ++ ·) (fun _ _ _ => rangeEntries_split G c)
        fun lo hi h => by rw [rangeEntries_empty G c h, rangeEntries_empty G c le_rfl]
      simp only [hpc, WorkerPc.pending, this, ← Multiset.coe_add, Multiset.coe_nil, add_zero]
      ac_rfl
    · intro a
      have := hsplit (G.rangeWeight c a) (· + ·) (fun _ _ _ => rangeWeight_split G c a)
        fun lo hi h => by rw [rangeWeight_empty G c a h, rangeWeight_empty G c a le_rfl]
      simp only [hpc, WorkerPc.pendingWeight, this]
      congr 1
      omega
    · exact ⟨by rw [hstop]; split <;> omega, by rw [hstop]; split <;> omega⟩
    · have := hsplit (G.rangeCost) (· + ·) (fun _ _ _ => rangeCost_split G)
        fun lo hi h => by rw [rangeCost_empty G h, rangeCost_empty G le_rfl]
      simp only [hpc, WorkerPc.cost, this, Nat.succ_mul]
      omega

variable {G c T bs} in
/-- One step of a running thread returns, keeps the invariant, and lowers
the cost of the phase: the `fetch_add` does not wrap, and a block ends
at or before the last node. -/
theorem PoolInv.step (hbs : 0 < bs) (hwrap : G.n + T * bs < 2 ^ 32) {p : Pool} {f : Nat}
    {ins : List ((Nat × Nat) × Int)} (hinv : PoolInv G c T bs p f ins) {i : Nat} (hi : i < T)
    (hlive : (p.workers i).pc.isDone = false) :
    ∃ p' f' ins', workerStep G c T bs p i = .ok p' ∧ PoolInv G c T bs p' f' ins' ∧
      poolCost G T bs p' f' < poolCost G T bs p f := by
  have hshape := hinv.shaped i hi
  unfold workerStep
  rcases hpc : (p.workers i).pc with _ | ⟨v, stop⟩ | ⟨v, stop, h, _ | ⟨x, rest⟩⟩ | _
  · exact hinv.fetch hbs hwrap hi hlive hpc
  · -- the test `node != end`
    rw [hpc] at hshape
    obtain ⟨hvs, hsn⟩ := hshape
    simp only [hpc]
    by_cases hv : v = stop
    · subst hv
      rw [if_pos rfl]
      exact ⟨_, f, ins, rfl, hinv.of_inner_step hi hlive rfl
        (by simp [hpc, WorkerPc.pending, rangeEntries_empty G c (le_refl v)])
        (fun a => by simp [hpc, WorkerPc.pendingWeight, rangeWeight_empty G c a (le_refl v)]) hinv.tables trivial
        (by simp [hpc, WorkerPc.cost, rangeCost_empty G (le_refl v)])⟩
    · have hvlt : v < stop := lt_of_le_of_ne hvs hv
      rw [if_neg hv, if_pos (by omega)]
      refine ⟨_, f, ins, rfl, hinv.of_inner_step hi hlive rfl
        (by simp only [hpc, WorkerPc.pending, rangeEntries_first G c hvlt]) (fun a => ?_) hinv.tables
        ⟨hvlt, hsn, Or.inl rfl⟩ (by simp only [hpc, WorkerPc.cost, rangeCost_first G hvlt]; omega)⟩
      simp only [hpc, WorkerPc.pendingWeight, rangeWeight_first G c a hvlt, Function.update_apply]
      by_cases ha : a = c v
      · subst ha; simp only [if_true, toNodeWeight_add_left, Nat.add_assoc]
      · simp only [ha, if_false, Ne.symm ha, Nat.zero_add]
  · -- the node's out-edges are done: on to the next node
    rw [hpc] at hshape
    obtain ⟨hvs, hsn, -⟩ := hshape
    have hv1 : (v + 1) % 2 ^ 32 = v + 1 := Nat.mod_eq_of_lt (by omega)
    simp only [hpc, hv1]
    exact ⟨_, f, ins, rfl, hinv.of_inner_step hi hlive rfl (by simp [hpc, WorkerPc.pending, arcEntries])
      (fun a => by simp [hpc, WorkerPc.pendingWeight]) hinv.tables ⟨hvs, hsn⟩ (by simp [hpc, WorkerPc.cost])⟩
  · -- one out-edge
    rw [hpc] at hshape
    obtain ⟨hvs, hsn, hh⟩ := hshape
    simp only [hpc]
    by_cases hcut : c v ≠ c x.target
    · -- a cut arc goes to the table of its source cluster
      have hgetD : h.getD (c v % T) = c v % T := by rcases hh with rfl | rfl <;> rfl
      rw [if_pos hcut, hgetD]
      refine ⟨_, f, ins ++ [(pairUnsorted (c v) (c x.target), x.weight)], rfl,
        hinv.of_inner_step hi hlive rfl ?_ (fun a => by simp [hpc, WorkerPc.pendingWeight]) (fun j => ?_)
          ⟨hvs, hsn, Or.inr rfl⟩ (by simp [hpc, WorkerPc.cost])⟩
      · simp [hpc, WorkerPc.pending, arcEntries_cons, hcut]
      · by_cases hj : j = c v % T
        · subst hj
          rw [Function.update_same, List.filter_append, List.filter_singleton]
          simp only [pairUnsorted, decide_True, cond_true]
          exact (hinv.tables _).insertOrUpdate _ _
        · rw [Function.update_noteq hj, List.filter_append, List.filter_singleton]
          simp only [pairUnsorted, Ne.symm hj, decide_False, cond_false, List.append_nil]
          exact hinv.tables j
    · push_neg at hcut
      rw [if_neg (not_not.2 hcut)]
      exact ⟨_, f, ins, rfl, hinv.of_inner_step hi hlive rfl (by simp [hpc, WorkerPc.pending, arcEntries_cons, hcut])
        (fun a => by simp [hpc, WorkerPc.pendingWeight]) hinv.tables ⟨hvs, hsn, hh⟩ (by simp [hpc, WorkerPc.cost])⟩
  · rw [hpc] at hlive; cases hlive

variable {G c T bs} in
/-- Under every schedule, with more fuel than the phase costs, every thread
returns, without a fault, and the invariant holds at the join. -/
theorem PoolInv.run (hbs : 0 < bs) (hwrap : G.n + T * bs < 2 ^ 32) (sched : Nat → Nat) :
    ∀ fuel {p : Pool} {f : Nat} {ins : List ((Nat × Nat) × Int)}, PoolInv G c T bs p f ins →
      poolCost G T bs p f < fuel → ∃ p' f' ins', runWorkers G c T bs sched fuel p = .ok p' ∧
        PoolInv G c T bs p' f' ins' ∧ liveWorkers T p' = []
  | 0, _, _, _, _, h => absurd h (Nat.not_lt_zero _)
  | fuel + 1, p, f, ins, hinv, hcost => by
    rw [runWorkers]
    rcases hl : liveWorkers T p with _ | ⟨j, rest⟩
    · exact ⟨p, f, ins, rfl, hinv, hl⟩
    · have hmem : (j :: rest).getD (sched fuel % (j :: rest).length) 0 ∈ liveWorkers T p := by
        rw [hl, List.getD_eq_getElem?_getD, List.getElem?_eq_getElem (Nat.mod_lt _ (by simp)), Option.getD_some]
        exact List.getElem_mem _
      simp only [liveWorkers, List.mem_filter, List.mem_range, Bool.not_eq_true', decide_eq_true_eq] at hmem
      obtain ⟨p1, f1, ins1, hstep, hinv1, hcost1⟩ := hinv.step hbs hwrap hmem.1 hmem.2
      obtain ⟨p', f', ins', hrun, hinv', hl'⟩ := PoolInv.run hbs hwrap sched fuel hinv1 (by omega)
      exact ⟨p', f', ins', by simp only [hstep, hrun, bind, Except.bind], hinv', hl'⟩

variable {G c T bs} in
/-- At the join nothing is pending: the inserted entries are every cut arc
once, and the threads' `my_block_infos` add up to the cluster weights, as
`NodeWeight`s. -/
theorem PoolInv.finish (hT : 0 < T) {p : Pool} {f : Nat} {ins : List ((Nat × Nat) × Int)}
    (hinv : PoolInv G c T bs p f ins) (hl : liveWorkers T p = []) :
    ins.Perm (G.rangeEntries c 0 G.n) ∧ ∀ a, p.blockInfos T a = toNodeWeight (G.clusterWeight c a) := by
  have hdone : ∀ j < T, (p.workers j).pc = .done := fun j hj => by
    have : j ∉ liveWorkers T p := by rw [hl]; exact List.not_mem_nil j
    simp only [liveWorkers, List.mem_filter, List.mem_range, Bool.not_eq_true', not_and, Bool.not_eq_false] at this
    have h := this hj
    revert h
    cases (p.workers j).pc <;> simp [WorkerPc.isDone]
  have hcount : doneCount T p = T := by
    rw [doneCount, sum_congr rfl fun j hj => by rw [hdone j (mem_range.1 hj)]]
    simp [WorkerPc.isDone]
  have hpast := hinv.past (by omega)
  have hfn : G.n ≤ f * bs := hpast.trans (Nat.mul_le_mul_right _ (Nat.sub_le _ _))
  have hpend : ∀ j ∈ range T, (p.workers j).pc.pending G c = [] := fun j hj => by
    rw [hdone j (mem_range.1 hj)]; rfl
  have hpw : ∀ a, ∀ j ∈ range T, (p.workers j).pc.pendingWeight G c a = 0 := fun a j hj => by
    rw [hdone j (mem_range.1 hj)]; rfl
  refine ⟨?_, fun a => ?_⟩
  · have h := hinv.entries
    rw [sum_congr rfl fun j hj => by rw [hpend j hj], rangeEntries_empty G c hfn] at h
    simpa using h
  · have h := hinv.weight a
    rw [sum_congr rfl (hpw a), rangeWeight_empty G c a hfn] at h
    simpa [Pool.blockInfos_eq] using h

end Pool

/-! ## The tables at the join -/

section Cut

variable (G : Graph) (c : Nat → Nat)

theorem mem_arcEntries {v : Nat} {L : List Arc} {e : (Nat × Nat) × Int} :
    e ∈ arcEntries c v L ↔ ∃ x ∈ L, c v ≠ c x.target ∧ e = ((c v, c x.target), x.weight) := by
  simp only [arcEntries, List.mem_filterMap, pairUnsorted]
  refine exists_congr fun x => and_congr_right fun _ => ?_
  split <;> simp_all [eq_comm]

/-- Under the unsorted key `(a, b)`, the cut arcs of `v` weigh its arcs to
cluster `b`, if `v` lies in cluster `a`. -/
theorem sumKey_arcEntries {a b : Nat} (hab : a ≠ b) (v : Nat) :
    ∀ L : List Arc, sumKey (arcEntries c v L) (a, b) =
      if c v = a then sumTo (L.map fun x => ⟨c x.target, x.weight, x.weight_fits⟩) b else 0
  | [] => by simp [arcEntries]
  | x :: L => by
    rw [arcEntries_cons, List.map_cons, sumTo_cons]
    split
    · rename_i hcut
      rw [sumKey_cons, sumKey_arcEntries hab v L]
      by_cases hv : c v = a
      · subst hv; simp [pairUnsorted]
      · simp [pairUnsorted, hv]
    · rename_i hcut
      rw [sumKey_arcEntries hab v L]
      by_cases hv : c v = a
      · subst hv
        have : c x.target ≠ b := fun h => hab (by rw [← h]; exact not_not.1 hcut)
        simp [this]
      · simp [hv]

/-- Every cut arc of the graph, under its unsorted key. -/
abbrev Graph.cutArcs : List ((Nat × Nat) × Int) := G.rangeEntries c 0 G.n

theorem mem_cutArcs {e : (Nat × Nat) × Int} :
    e ∈ G.cutArcs c ↔ ∃ v < G.n, ∃ x ∈ G.adj v, c v ≠ c x.target ∧ e = ((c v, c x.target), x.weight) := by
  simp only [Graph.cutArcs, Graph.rangeEntries, Nat.sub_zero, ← List.range_eq_range', List.mem_flatMap,
    List.mem_range, mem_arcEntries]

theorem sumKey_cutArcs_unsorted {a b : Nat} (hab : a ≠ b) :
    sumKey (G.cutArcs c) (a, b) = G.quotientWeight c a b := by
  rw [Graph.cutArcs, Graph.rangeEntries, Nat.sub_zero, ← List.range_eq_range', sumKey_flatMap,
    Graph.quotientWeight, sum_range_eq_list]
  exact congrArg List.sum (List.map_congr_left fun u _ => sumKey_arcEntries c hab u (G.adj u))

theorem key_mem_cutArcs {a b : Nat} : (a, b) ∈ (G.cutArcs c).map (·.1) ↔ a ≠ b ∧ G.Joined c a b := by
  simp only [List.mem_map, mem_cutArcs, Graph.Joined, Graph.clusterArcs, List.map_map, Function.comp_def]
  constructor
  · rintro ⟨e, ⟨v, hv, x, hx, hne, rfl⟩, he⟩
    cases he
    exact ⟨hne, v, hv, rfl, x, hx, rfl⟩
  · rintro ⟨hab, v, hv, rfl, x, hx, rfl⟩
    exact ⟨_, ⟨v, hv, x, hx, hab, rfl⟩, rfl⟩

end Cut

theorem sumKey_perm {L L' : List ((Nat × Nat) × Int)} (h : L.Perm L') (key : Nat × Nat) :
    sumKey L key = sumKey L' key :=
  ((h.filter _).map _).sum_eq

/-- Filtering the entries by a test that every entry under `key` passes
leaves the weight under `key`. -/
theorem sumKey_filter {L : List ((Nat × Nat) × Int)} {P : (Nat × Nat) × Int → Bool} {key : Nat × Nat}
    (h : ∀ e ∈ L, e.1 = key → P e) : sumKey (L.filter P) key = sumKey L key := by
  rw [sumKey, sumKey, List.filter_filter]
  congr 2
  exact List.filter_congr fun e he => by by_cases hk : e.1 = key <;> simp [hk, h e he]

section Tables

variable {T : Nat} {iterate : Nat → List ((Nat × Nat) × Nat) → List ((Nat × Nat) × Nat)} {p : Pool}
  {ins : List ((Nat × Nat) × Int)}

theorem mem_tableEntries (hiter : ∀ i l, (iterate i l).Perm l) {e : (Nat × Nat) × Nat} :
    e ∈ tableEntries T iterate p ↔ ∃ j < T, e ∈ (p.tables j).entries := by
  simp only [tableEntries, List.mem_flatMap, List.mem_range, (hiter _ _).mem_iff]

variable (htab : ∀ j, TableInv (p.tables j) (ins.filter fun e => e.1.1 % T = j))
include htab

theorem key_mod_of_mem_table {j : Nat} {k : Nat × Nat} (hk : k ∈ (p.tables j).keys) : k.1 % T = j := by
  obtain ⟨e, he, rfl⟩ := List.mem_map.1 (((htab j).mem k).1 hk)
  simpa using (List.mem_filter.1 he).2

/-- The entries of the tables, one table after the other: each key once,
and each weighing the entries of its key. -/
theorem tableEntries_spec (hiter : ∀ i l, (iterate i l).Perm l) :
    ((tableEntries T iterate p).map (·.1)).Nodup ∧
      (∀ e ∈ tableEntries T iterate p, e.1 ∈ ins.map (·.1) ∧ e.2 = toSizeT (sumKey ins e.1)) ∧
      ∀ k, k.1 % T < T → (k ∈ ins.map (·.1) → k ∈ (tableEntries T iterate p).map (·.1)) := by
  refine ⟨?_, fun e he => ?_, fun k hk hmem => ?_⟩
  · rw [tableEntries, List.map_flatMap]
    refine List.nodup_flatMap.2 ⟨fun j _ => ((hiter j _).map _).nodup_iff.2 (htab j).nodup,
      (List.nodup_range T).pairwise_of_forall_ne fun i _ j _ hij k hki hkj => hij ?_⟩
    have hi := key_mod_of_mem_table htab (((hiter i _).map (·.1)).subset hki)
    have hj := key_mod_of_mem_table htab (((hiter j _).map (·.1)).subset hkj)
    rw [← hi, ← hj]
  · obtain ⟨j, -, hej⟩ := (mem_tableEntries hiter).1 he
    have hkey := key_mod_of_mem_table htab (List.mem_map_of_mem (·.1) hej)
    obtain ⟨e', he', hk⟩ := List.mem_map.1 (((htab j).mem e.1).1 (List.mem_map_of_mem _ hej))
    refine ⟨List.mem_map.2 ⟨e', (List.mem_filter.1 he').1, hk⟩, ?_⟩
    rw [(htab j).value e hej, sumKey_filter fun e'' _ h => by simp [h, hkey]]
  · have hin : k ∈ (ins.filter fun e => e.1.1 % T = k.1 % T).map (·.1) := by
      obtain ⟨e, he, rfl⟩ := List.mem_map.1 hmem
      exact List.mem_map_of_mem _ (List.mem_filter.2 ⟨he, by simp⟩)
    have hkt := ((htab (k.1 % T)).mem k).2 hin
    obtain ⟨e, he, rfl⟩ := List.mem_map.1 hkt
    exact List.mem_map_of_mem _ ((mem_tableEntries hiter).2 ⟨_, hk, he⟩)

end Tables

/-! ## The offsets, the prefix sum and the scatter -/

section Csr

variable (S : List ((Nat × Nat) × Nat))

/-- The entries of `S` from cluster `a`. -/
def srcEntries (a : Nat) : List ((Nat × Nat) × Nat) := S.filter fun e => e.1.1 = a

/-- Where the range of coarse node `a` starts: after the entries of the
clusters before it. -/
def srcStart (a : Nat) : Nat := ∑ b in range a, (srcEntries S b).length

theorem srcStart_succ (a : Nat) : srcStart S (a + 1) = srcStart S a + (srcEntries S a).length :=
  sum_range_succ _ _

theorem srcStart_mono {a b : Nat} (h : a ≤ b) : srcStart S a ≤ srcStart S b :=
  sum_le_sum_of_subset (range_subset.2 h)

theorem srcEntries_append (P R : List ((Nat × Nat) × Nat)) (a : Nat) :
    srcEntries (P ++ R) a = srcEntries P a ++ srcEntries R a := List.filter_append _ _

/-- The ranges of two clusters do not meet. -/
theorem srcSlot_ne {a b k k' : Nat} (hab : a ≠ b) (hk : k < (srcEntries S a).length)
    (hk' : k' < (srcEntries S b).length) : srcStart S a + k ≠ srcStart S b + k' := by
  rcases Nat.lt_or_gt_of_ne hab with h | h
  · have := srcStart_mono S (Nat.succ_le_of_lt h); rw [srcStart_succ] at this; omega
  · have := srcStart_mono S (Nat.succ_le_of_lt h); rw [srcStart_succ] at this; omega

theorem countEntries_eq (L : List ((Nat × Nat) × Nat)) (o : Nat → Nat) (a : Nat) :
    countEntries o L a = o a + (srcEntries L a).length := by
  induction L generalizing o with
  | nil => simp [countEntries, srcEntries]
  | cons e S ih =>
    have h := ih (Function.update o e.1.1 (o e.1.1 + 1))
    simp only [countEntries, List.foldl_cons] at h ⊢
    rw [h]
    by_cases he : e.1.1 = a
    · rw [he]
      simp only [srcEntries, List.filter_cons, he, decide_True, if_true, List.length_cons, Function.update_same]
      ac_rfl
    · simp [Function.update_noteq (Ne.symm he), he, srcEntries, List.filter_cons]

theorem srcStart_eq_length (L : List ((Nat × Nat) × Nat)) {n' : Nat} (h : ∀ e ∈ L, e.1.1 < n') :
    srcStart L n' = L.length := by
  induction L with
  | nil => simp [srcStart, srcEntries]
  | cons e S ih =>
    have hsplit : ∀ a, (srcEntries (e :: S) a).length = (if e.1.1 = a then 1 else 0) + (srcEntries S a).length :=
      fun a => by by_cases he : e.1.1 = a <;> simp [srcEntries, List.filter_cons, he]; omega
    rw [srcStart, sum_congr rfl fun a _ => hsplit a, sum_add_distrib, sum_ite_eq, if_pos
      (mem_range.2 (h e (List.mem_cons_self _ _))), ← srcStart, ih fun e' he' => h e' (List.mem_cons_of_mem _ he'),
      List.length_cons, Nat.add_comm]

theorem exists_srcRange {t : Nat} : ∀ {n : Nat}, t < srcStart S n →
    ∃ a < n, srcStart S a ≤ t ∧ t < srcStart S a + (srcEntries S a).length
  | 0, h => by simp [srcStart] at h
  | n + 1, h => by
    by_cases ht : t < srcStart S n
    · obtain ⟨a, ha, h1, h2⟩ := exists_srcRange ht
      exact ⟨a, by omega, h1, h2⟩
    · rw [srcStart_succ] at h
      exact ⟨n, by omega, by omega, h⟩

/-- The prefix sum: the first `k` coarse nodes have their ranges' starts in
`offsets` and `firstEdge`, and their weights; the counts of the others are
untouched. -/
theorem prefixStep_run (w : Nat → Nat) (k : Nat) :
    let s := (List.range k).foldl (prefixStep w) ⟨fun a => (srcEntries S a).length, fun _ => 0, fun _ => 0, 0⟩
    (∀ a < k, s.offsets a = srcStart S a ∧ s.firstEdge a = srcStart S a ∧ s.weight a = w a) ∧
      s.cur = srcStart S k ∧ ∀ a, k ≤ a → s.offsets a = (srcEntries S a).length := by
  induction k with
  | zero => exact ⟨fun a ha => absurd ha (Nat.not_lt_zero a), rfl, fun a _ => rfl⟩
  | succ k ih =>
    obtain ⟨h1, h2, h3⟩ := ih
    simp only [List.range_succ, List.foldl_append, List.foldl_cons, List.foldl_nil, prefixStep]
    refine ⟨fun a ha => ?_, by rw [h2, h3 k le_rfl, srcStart_succ], fun a ha => ?_⟩
    · by_cases hak : a = k
      · subst hak; simp [h2]
      · simp only [Function.update_noteq hak]; exact h1 a (by omega)
    · rw [Function.update_noteq (by omega)]; exact h3 a (by omega)

variable (n' : Nat)

/-- The scatter after the entries `P`: each cluster's next free slot, the
arcs written so far at the start of each range, in the order of their
entries, and every slot written so far, once each. -/
structure ScatterInv (P : List ((Nat × Nat) × Nat)) (sc : Scatter) : Prop where
  offsets : ∀ a < n', sc.offsets a = srcStart S a + (srcEntries P a).length
  edges : ∀ a < n', (List.range (srcEntries P a).length).map (fun k => sc.edges (srcStart S a + k)) =
    (srcEntries P a).map fun e => Arc.ofWeight e.1.2 e.2
  nodup : sc.written.Nodup
  written : ∀ t, t ∈ sc.written ↔ ∃ a < n', srcStart S a ≤ t ∧ t < srcStart S a + (srcEntries P a).length

variable {S n'}

theorem ScatterInv.step {P R : List ((Nat × Nat) × Nat)} {e : (Nat × Nat) × Nat} (hS : P ++ e :: R = S)
    {sc : Scatter} (hi : ScatterInv S n' P sc) (he : e.1.1 < n') :
    ScatterInv S n' (P ++ [e]) (scatterEntry sc e) := by
  have hle : ∀ a, (srcEntries P a).length ≤ (srcEntries S a).length := fun a => by
    rw [← hS, srcEntries_append]; simp
  have hlt : (srcEntries P e.1.1).length < (srcEntries S e.1.1).length := by
    rw [← hS, srcEntries_append]; simp [srcEntries, List.filter_cons]
  have hslot : sc.offsets e.1.1 = srcStart S e.1.1 + (srcEntries P e.1.1).length := hi.offsets _ he
  -- the slot written now is in no range written before
  have hfresh : ∀ a < n', ∀ k < (srcEntries P a).length, srcStart S a + k ≠ sc.offsets e.1.1 := by
    intro a _ k hk
    rw [hslot]
    by_cases ha : a = e.1.1
    · subst ha; omega
    · exact srcSlot_ne S ha (lt_of_lt_of_le hk (hle a)) hlt
  have hcount : ∀ a, (srcEntries (P ++ [e]) a).length =
      (srcEntries P a).length + if e.1.1 = a then 1 else 0 := fun a => by
    by_cases h : e.1.1 = a <;> simp [srcEntries_append, srcEntries, h]
  refine ⟨fun a ha => ?_, fun a ha => ?_, ?_, fun t => ?_⟩
  · simp only [scatterEntry, Function.update_apply, hcount]
    split
    · rename_i h; subst h; rw [hslot, if_pos rfl]; omega
    · rename_i h; rw [hi.offsets a ha, if_neg (Ne.symm h)]; omega
  · by_cases h : e.1.1 = a
    · subst h
      have hlast : srcEntries [e] e.1.1 = [e] := by simp [srcEntries]
      rw [hcount, if_pos rfl, List.range_succ, List.map_append, srcEntries_append, hlast, List.map_append]
      simp only [scatterEntry, List.map_cons, List.map_nil]
      rw [List.map_congr_left fun k hk => Function.update_noteq (hfresh _ he k (List.mem_range.1 hk)) _ _,
        hi.edges _ he, ← hslot, Function.update_same]
    · have hsame : srcEntries (P ++ [e]) a = srcEntries P a := by simp [srcEntries_append, srcEntries, h]
      rw [hsame, ← hi.edges a ha]
      exact List.map_congr_left fun k hk => Function.update_noteq (hfresh a ha k (List.mem_range.1 hk)) _ _
  · refine List.nodup_append.2 ⟨hi.nodup, List.nodup_singleton _, fun t ht ht' => ?_⟩
    rw [List.mem_singleton] at ht'
    obtain ⟨a, ha, h1, h2⟩ := (hi.written t).1 ht
    exact hfresh a ha (t - srcStart S a) (by omega) (by rw [← ht']; omega)
  · simp only [scatterEntry, List.mem_append, List.mem_singleton, hi.written, hcount]
    constructor
    · rintro (⟨a, ha, h1, h2⟩ | rfl)
      · exact ⟨a, ha, h1, by split <;> omega⟩
      · exact ⟨e.1.1, he, by omega, by rw [if_pos rfl]; omega⟩
    · rintro ⟨a, ha, h1, h2⟩
      by_cases h : e.1.1 = a
      · subst h
        rw [if_pos rfl] at h2
        by_cases ht : t = sc.offsets e.1.1
        · exact Or.inr ht
        · exact Or.inl ⟨_, ha, h1, by omega⟩
      · rw [if_neg h] at h2
        exact Or.inl ⟨a, ha, h1, by omega⟩

theorem ScatterInv.run : ∀ (R P : List ((Nat × Nat) × Nat)) (sc : Scatter), P ++ R = S →
    ScatterInv S n' P sc → (∀ e ∈ R, e.1.1 < n') → ScatterInv S n' S (R.foldl scatterEntry sc)
  | [], P, sc, hS, hi, _ => by simpa [← hS] using hi
  | e :: R, P, sc, hS, hi, hR =>
    ScatterInv.run R (P ++ [e]) _ (by simpa using hS) (hi.step hS (hR e (List.mem_cons_self _ _)))
      fun e' he' => hR e' (List.mem_cons_of_mem _ he')

/-- Once the scatter has placed every entry, it has written each slot below
the number of entries exactly once. -/
theorem ScatterInv.written_perm {sc : Scatter} (hsc : ScatterInv S n' S sc) (hsrc : ∀ e ∈ S, e.1.1 < n') :
    sc.written.Perm (List.range S.length) := by
  refine (List.perm_ext_iff_of_nodup hsc.nodup (List.nodup_range _)).2 fun t => ?_
  rw [hsc.written, List.mem_range, ← srcStart_eq_length S hsrc]
  constructor
  · rintro ⟨a, ha, -, h⟩
    have := srcStart_mono S (Nat.succ_le_of_lt ha)
    rw [srcStart_succ] at this
    omega
  · exact fun h => exists_srcRange S h

/-- The arcs of coarse node `a`, read off the entries of cluster `a`, are its
quotient arcs when the entries' keys are the joined pairs of distinct
clusters, each once, with the quotient weight as a `size_t`. -/
theorem quotientArcs_srcEntries {G : Graph} {c : Nat → Nat} (hnd : (S.map (·.1)).Nodup)
    (hkey : ∀ a b, (a, b) ∈ S.map (·.1) ↔ a ≠ b ∧ G.Joined c a b)
    (hweight : ∀ e ∈ S, e.2 = toSizeT (G.quotientWeight c e.1.1 e.1.2)) (a : Nat) :
    G.QuotientArcs c (G.Joined c) a ((srcEntries S a).map fun e => Arc.ofWeight e.1.2 e.2) := by
  have hfst : (srcEntries S a).map (·.1) = ((srcEntries S a).map (·.1.2)).map (Prod.mk a) := by
    rw [List.map_map]
    refine List.map_congr_left fun e he => ?_
    have h := (List.mem_filter.1 he).2
    simp only [decide_eq_true_eq] at h
    simp [← h]
  refine ⟨?_, fun x hx => ?_, fun b hb => ?_⟩
  · rw [List.map_map]
    exact (hfst ▸ hnd.sublist ((List.filter_sublist _).map _)).of_map _
  · obtain ⟨e, he, rfl⟩ := List.mem_map.1 hx
    obtain ⟨heS, hea⟩ := List.mem_filter.1 he
    simp only [decide_eq_true_eq] at hea
    subst hea
    exact ⟨((hkey e.1.1 e.1.2).1 (List.mem_map_of_mem (·.1) heS)).1.symm,
      by rw [Arc.ofWeight_weight, Arc.ofWeight_target, hweight e heS, toEdgeWeight_sizeT]⟩
  · rw [← (hkey a b).trans (and_iff_right (Ne.symm hb)), List.map_map]
    constructor
    · intro h
      obtain ⟨e, he, rfl⟩ := List.mem_map.1 h
      obtain ⟨heS, hea⟩ := List.mem_filter.1 he
      simp only [decide_eq_true_eq] at hea
      exact List.mem_map.2 ⟨e, heS, by simp [← hea]⟩
    · intro h
      obtain ⟨e, heS, hek⟩ := List.mem_map.1 h
      exact List.mem_map.2 ⟨e, List.mem_filter.2 ⟨heS, by simp [hek]⟩, by simp [hek]⟩

end Csr

/-! ## The coarse graph -/

/-- On `T` threads, under every schedule, with fuel for every step and the
cursor kept from wrapping, `parallel_fast_contract_clustering_multiple_threads`
returns the quotient of `G`: the coarse nodes' ranges start at `0`, each
where the one before ends, and the last ends with the edge array, whose
every slot the scatter writes exactly once. -/
theorem sharded_contract_quotient {G : Graph} {c : Nat → Nat} {T n' : Nat}
    {iterate : Nat → List ((Nat × Nat) × Nat) → List ((Nat × Nat) × Nat)} (sched : Nat → Nat) {fuel : Nat}
    (hT : 0 < T) (hiter : ∀ i l, (iterate i l).Perm l) (hc : ∀ v < G.n, c v < n')
    (hwrap : G.n + T * blockSize G.n < 2 ^ 32) (hfuel : T + G.numberOfEdges + 4 * G.n < fuel) :
    ∃ p b, runWorkers G c T (blockSize G.n) sched fuel poolStart = .ok p ∧
      shardedContract G c T false n' iterate sched fuel = .ok b ∧
      G.IsQuotient c (G.Joined c) n' b.toGraph ∧ b.nodes.firstEdge 0 = 0 ∧
      (∀ a < n', b.nodes.firstEdge (a + 1) = b.nodes.firstEdge a + (b.toGraph.adj a).length) ∧
      b.nodes.firstEdge n' = b.edges.count ∧
      (coarseArrays T n' iterate p).2.written.Perm (List.range b.edges.count) := by
  -- the hashing phase ends, with every cut arc in the table of its source
  have hbs : 0 < blockSize G.n := lt_of_lt_of_le (by norm_num) (le_max_right _ _)
  obtain ⟨p, f, ins, hrun, hinv, hl⟩ := PoolInv.run hbs hwrap sched fuel (poolInv_start G c T _ hbs)
    (by rw [poolCost_start]; omega)
  obtain ⟨hins, hinfos⟩ := hinv.finish hT hl
  set S := tableEntries T iterate p with hS
  obtain ⟨hnd, hval, hall⟩ := tableEntries_spec hinv.tables hiter
  have hkey : ∀ a b, (a, b) ∈ S.map (·.1) ↔ a ≠ b ∧ G.Joined c a b := fun a b => by
    rw [← key_mem_cutArcs, ← (hins.map _).mem_iff]
    exact ⟨fun h => by obtain ⟨e, he, hek⟩ := List.mem_map.1 h; rw [← hek]; exact (hval e he).1,
      fun h => hall _ (Nat.mod_lt _ hT) h⟩
  have hkey' : ∀ e ∈ S, e.1.1 ≠ e.1.2 ∧ G.Joined c e.1.1 e.1.2 := fun e he =>
    (hkey e.1.1 e.1.2).1 (List.mem_map_of_mem (·.1) he)
  have hweight : ∀ e ∈ S, e.2 = toSizeT (G.quotientWeight c e.1.1 e.1.2) := fun e he => by
    rw [(hval e he).2, sumKey_perm hins, ← sumKey_cutArcs_unsorted G c (hkey' e he).1]
  have hsrc : ∀ e ∈ S, e.1.1 < n' := fun e he => by
    obtain ⟨u, hu, hcu, -⟩ := (hkey' e he).2
    rw [← hcu]; exact hc u hu
  -- the offsets, the prefix sum and the scatter
  obtain ⟨hpre, hcur, -⟩ := prefixStep_run S (p.blockInfos T) n'
  have hcount : countEntries (fun _ => 0) S = fun a => (srcEntries S a).length :=
    funext fun a => by rw [countEntries_eq, Nat.zero_add]
  set s := (List.range n').foldl (prefixStep (p.blockInfos T))
    ⟨fun a => (srcEntries S a).length, fun _ => 0, fun _ => 0, 0⟩ with hs
  have hsc : ScatterInv S n' S (scatterAll s.offsets S) :=
    ScatterInv.run S [] _ rfl ⟨fun a ha => by show s.offsets a = _; rw [(hpre a ha).1]; rfl, fun a _ => rfl,
      List.nodup_nil,
      fun t => by simp [srcEntries]⟩ hsrc
  have harrays : coarseArrays T n' iterate p = (s, scatterAll s.offsets S) := by
    rw [coarseArrays, ← hS, hcount]
  set fe := Function.update s.firstEdge n' s.cur with hfe
  have hfe : ∀ a ≤ n', fe a = srcStart S a := fun a ha => by
    rcases Nat.lt_or_eq_of_le ha with ha | rfl
    · rw [hfe, Function.update_noteq (Nat.ne_of_lt ha), (hpre a ha).2.1]
    · rw [hfe, Function.update_same, hcur]
  have hlen : srcStart S n' = S.length := srcStart_eq_length S hsrc
  refine ⟨p, Builder.ofArrays n' fe s.weight S.length (scatterAll s.offsets S).edges, hrun, ?_, ?_, ?_, ?_, ?_, ?_⟩
  · simp only [shardedContract, hrun, bind, Except.bind, harrays, Bool.false_eq_true, if_false, pure,
      Except.pure]
  · -- the arcs of each coarse node are its entries
    have hadj : ∀ a < n', (Builder.ofArrays n' fe s.weight S.length (scatterAll s.offsets S).edges).toGraph.adj a =
        (srcEntries S a).map fun e => Arc.ofWeight e.1.2 e.2 := fun a ha => by
      show ((List.range' (fe a) (fe (a + 1) - fe a)).map _) = _
      rw [hfe a ha.le, hfe (a + 1) ha, srcStart_succ, Nat.add_sub_cancel_left, List.range'_eq_map_range,
        List.map_map, ← hsc.edges a ha]
      rfl
    refine ⟨rfl, fun a ha => ?_, fun a ha => ?_⟩
    · show toNodeWeight (s.weight a) = _
      rw [(hpre a ha).2.2, hinfos, toNodeWeight_toNodeWeight]
    · rw [hadj a ha]
      exact quotientArcs_srcEntries hnd hkey hweight a
  · show fe 0 = 0
    rw [hfe 0 (Nat.zero_le _)]; rfl
  · intro a ha
    show fe (a + 1) = fe a + ((List.range' (fe a) (fe (a + 1) - fe a)).map _).length
    rw [List.length_map, List.length_range', hfe a ha.le, hfe (a + 1) ha, srcStart_succ]
    omega
  · show fe n' = S.length
    rw [hfe n' le_rfl, hlen]
  · rw [harrays]
    exact hsc.written_perm hsrc

theorem sharded_contract_quotient_on_edge :
    ∃ p b, runWorkers edge01 id 2 (blockSize edge01.n) (fun _ => 0) 13 poolStart = .ok p ∧
      shardedContract edge01 id 2 false 2 (fun _ l => l) (fun _ => 0) 13 = .ok b ∧
      edge01.IsQuotient id (edge01.Joined id) 2 b.toGraph ∧ b.nodes.firstEdge 0 = 0 ∧
      (∀ a < 2, b.nodes.firstEdge (a + 1) = b.nodes.firstEdge a + (b.toGraph.adj a).length) ∧
      b.nodes.firstEdge 2 = b.edges.count ∧
      (coarseArrays 2 2 (fun _ l => l) p).2.written.Perm (List.range b.edges.count) :=
  sharded_contract_quotient _ (by decide) (fun _ _ => List.Perm.refl _) (by decide)
    (by have := Nat.sqrt_le_self 2; show 2 + 2 * max (Nat.sqrt 2) 1000 < 2 ^ 32; omega) (by decide)

/-- On `heavyEdge`, one cluster, the weights of its two nodes add up in
`my_block_infos` to `2 ^ 32`, which wraps: the coarse node weighs `0`. -/
theorem sharded_contract_wraps_cluster_weight :
    ∃ b, shardedContract heavyEdge (fun _ => 0) 2 false 1 (fun _ l => l) (fun _ => 0) 20 = .ok b ∧
      b.toGraph.nodeWeight 0 = 0 ∧ heavyEdge.clusterWeight (fun _ => 0) 0 = 2 ^ 32 := by
  have h : (shardedContract heavyEdge (fun _ => 0) 2 false 1 (fun _ l => l) (fun _ => 0) 20).toOption.map
      (fun b => b.toGraph.nodeWeight 0) = some 0 := by
    unfold shardedContract; rw [blockSize_heavyEdge]; decide!
  obtain ⟨b, hb, hw⟩ := exists_ok_of_toOption h
  exact ⟨b, hb, hw, heavyEdge_clusterWeight⟩

/-! ## The cursor past the last node -/

section Wrap

variable {G : Graph} {c : Nat → Nat} {T bs : Nat}

/-- The schedule that picks the first live thread picks `i` once every thread
before it is done. -/
theorem liveWorkers_eq_cons {p : Pool} {i : Nat} (hi : i < T)
    (hbefore : ∀ j < i, (p.workers j).pc.isDone = true) (hlive : (p.workers i).pc.isDone = false) :
    ∃ rest, liveWorkers T p = i :: rest := by
  obtain ⟨m, rfl⟩ : ∃ m, T = i + (m + 1) := ⟨T - i - 1, by omega⟩
  have hpre : (List.range i).filter (fun j => !(p.workers j).pc.isDone) = [] :=
    List.filter_eq_nil_iff.2 fun j hj => by simp [hbefore j (List.mem_range.1 hj)]
  rw [liveWorkers, List.range_add, List.filter_append, hpre, List.range_succ_eq_map, List.map_cons,
    List.filter_cons, Nat.add_zero, hlive]
  exact ⟨_, rfl⟩

/-- One step of that schedule, and the one that faults. -/
theorem runWorkers_first {p p' : Pool} {i : Nat} {rest : List Nat} (hl : liveWorkers T p = i :: rest)
    (h : workerStep G c T bs p i = .ok p') (fuel : Nat) :
    runWorkers G c T bs (fun _ => 0) (fuel + 1) p = runWorkers G c T bs (fun _ => 0) fuel p' := by
  rw [runWorkers, hl]
  simp only [Nat.zero_mod, List.getD_cons_zero, h, bind, Except.bind]

theorem runWorkers_first_error {p : Pool} {i : Nat} {rest : List Nat} {e : Fault}
    (hl : liveWorkers T p = i :: rest) (h : workerStep G c T bs p i = .error e) (fuel : Nat) :
    runWorkers G c T bs (fun _ => 0) (fuel + 1) p = .error e := by
  rw [runWorkers, hl]
  simp only [Nat.zero_mod, List.getD_cons_zero, h, bind, Except.bind]

variable (hG : ∀ v, G.adj v = []) (hn : G.n < 2 ^ 32)
include hG hn

/-- On a graph without edges, a thread that the schedule picks runs a block
`[v, e)` to its end in two steps per node and one to leave it. -/
theorem runWorkers_block {i : Nat} (hi : i < T) :
    ∀ (d : Nat) {p : Pool} {v e : Nat}, e - v = d → v ≤ e → e ≤ G.n →
      (∀ j < i, (p.workers j).pc.isDone = true) → (p.workers i).pc = .node v e →
      ∃ w, ∀ fuel, runWorkers G c T bs (fun _ => 0) (fuel + (2 * d + 1)) p =
        runWorkers G c T bs (fun _ => 0) fuel ⟨p.offset, p.tables, Function.update p.workers i ⟨w, .fetch⟩⟩
  | 0, p, v, e, hd, hvs, _, hbefore, hpc => by
    obtain ⟨rest, hl⟩ := liveWorkers_eq_cons hi hbefore (by rw [hpc]; rfl)
    refine ⟨(p.workers i).infos, fun fuel => runWorkers_first hl ?_ fuel⟩
    simp [workerStep, hpc, show v = e by omega, Pool.setWorker]
  | d + 1, p, v, e, hd, hvs, hsn, hbefore, hpc => by
    obtain ⟨rest, hl⟩ := liveWorkers_eq_cons hi hbefore (by rw [hpc]; rfl)
    let w1 : Worker :=
      ⟨Function.update (p.workers i).infos (c v) (toNodeWeight ((p.workers i).infos (c v) + G.nodeWeight v)),
        .arcs v e none []⟩
    let p1 : Pool := ⟨p.offset, p.tables, Function.update p.workers i w1⟩
    have h1 : workerStep G c T bs p i = .ok p1 := by
      simp only [workerStep, hpc, hG, show v ≠ e by omega, show v < G.n by omega, if_false, if_true]
      rfl
    have hbefore1 : ∀ j < i, (p1.workers j).pc.isDone = true := fun j hj => by
      simpa [p1, Function.update_noteq (Nat.ne_of_lt hj)] using hbefore j hj
    obtain ⟨rest1, hl1⟩ := liveWorkers_eq_cons (p := p1) hi hbefore1 (by simp [p1, w1]; rfl)
    let p2 : Pool := ⟨p.offset, p.tables, Function.update p.workers i ⟨w1.infos, .node (v + 1) e⟩⟩
    have h2 : workerStep G c T bs p1 i = .ok p2 := by
      simp only [workerStep, p1, w1, Function.update_same, Nat.mod_eq_of_lt (show v + 1 < 2 ^ 32 by omega)]
      simp [Pool.setWorker, p2]
    obtain ⟨w, hw⟩ := runWorkers_block hi d (p := p2) (v := v + 1) (e := e) (by omega) (by omega) hsn
      (fun j hj => by simpa [p2, Function.update_noteq (Nat.ne_of_lt hj)] using hbefore j hj)
      (by simp [p2])
    refine ⟨w, fun fuel => ?_⟩
    rw [show fuel + (2 * (d + 1) + 1) = fuel + (2 * d + 1) + 1 + 1 by ring, runWorkers_first hl h1,
      runWorkers_first hl1 h2, hw]
    simp [p2]

/-- A thread that the schedule picks, at its `fetch_add` with the cursor at
`o`, takes `m` whole blocks one after the other and runs each to its end. -/
theorem runWorkers_blocks (hbs : 0 < bs) {i : Nat} (hi : i < T) :
    ∀ (m : Nat) {p : Pool}, p.offset + m * bs ≤ G.n →
      (∀ j < i, (p.workers j).pc.isDone = true) → (p.workers i).pc = .fetch →
      ∃ w, ∀ fuel, runWorkers G c T bs (fun _ => 0) (fuel + m * (2 * bs + 2)) p =
        runWorkers G c T bs (fun _ => 0) fuel
          ⟨p.offset + m * bs, p.tables, Function.update p.workers i ⟨w, .fetch⟩⟩
  | 0, p, _, _, hpc => ⟨(p.workers i).infos, fun fuel => by
      have hw : (⟨(p.workers i).infos, .fetch⟩ : Worker) = p.workers i := by rw [← hpc]
      rw [hw, Function.update_eq_self, Nat.zero_mul, Nat.zero_mul, Nat.add_zero, Nat.add_zero]⟩
  | m + 1, p, hroom, hbefore, hpc => by
    rw [Nat.succ_mul] at hroom
    obtain ⟨rest, hl⟩ := liveWorkers_eq_cons hi hbefore (by rw [hpc]; rfl)
    have hend : (p.offset + bs) % 2 ^ 32 = p.offset + bs := Nat.mod_eq_of_lt (by omega)
    let p1 : Pool := ⟨p.offset + bs, p.tables, Function.update p.workers i ⟨(p.workers i).infos, .node p.offset (p.offset + bs)⟩⟩
    have h1 : workerStep G c T bs p i = .ok p1 := by
      have hfit : p.offset + bs ≤ G.n := by omega
      simp only [workerStep, hpc, hend, if_pos hfit, if_neg (show ¬ G.n ≤ p.offset by omega)]
      rfl
    obtain ⟨w1, hw1⟩ := runWorkers_block hG hn hi bs (p := p1) (v := p.offset) (e := p.offset + bs) (by omega) (by omega)
      (by omega)
      (fun j hj => by simpa [p1, Function.update_noteq (Nat.ne_of_lt hj)] using hbefore j hj) (by simp [p1])
    let p2 : Pool := ⟨p.offset + bs, p.tables, Function.update p.workers i ⟨w1, .fetch⟩⟩
    obtain ⟨w, hw⟩ := runWorkers_blocks hbs hi m (p := p2) (by simp only [p2]; omega)
      (fun j hj => by simpa [p2, Function.update_noteq (Nat.ne_of_lt hj)] using hbefore j hj) (by simp [p2])
    refine ⟨w, fun fuel => ?_⟩
    rw [show fuel + (m + 1) * (2 * bs + 2) = fuel + m * (2 * bs + 2) + (2 * bs + 1) + 1 by ring,
      runWorkers_first hl h1, hw1]
    simp only [p1, Function.update_idem]
    rw [show (⟨p.offset + bs, p.tables, Function.update p.workers i ⟨w1, .fetch⟩⟩ : Pool) = p2 from rfl, hw]
    simp only [p2, Function.update_idem]
    congr 2
    ring

end Wrap

/-- `2 ^ 32 - 1` nodes of weight `1` and no edges: as many nodes as a
`NodeID` below `2 ^ 32` can count. -/
def wideGraph : Graph := ⟨2 ^ 32 - 1, fun _ => 1, fun _ => [], fun _ => by norm_num⟩

theorem blockSize_wideGraph : blockSize wideGraph.n = 65535 := by
  have h : Nat.sqrt (2 ^ 32 - 1) = 65535 :=
    le_antisymm (Nat.lt_succ_iff.1 (Nat.sqrt_lt'.2 (by decide))) (Nat.le_sqrt'.2 (by decide))
  simp only [blockSize, wideGraph, h]
  rfl

/-- The cursor of the block loop is a 32-bit atomic, and a thread adds the block
size to it before it compares the result with the node count. With `2 ^ 32 - 1`
nodes and blocks of `65535`, the thread that takes the last block leaves the
cursor at `n`; its next fetch-and-add wraps it to `65534`, and it returns. The
other thread takes the wrapped cursor as a new block, redoes the nodes from
`65534` on, and at the block from `2 ^ 32 - 2` its end wraps to `65533`: the loop
`node != end` then runs past the last node and reads node `n`. -/
theorem sharded_cursor_wraps_past_last_node (k : Nat)
    (iterate : Nat → List ((Nat × Nat) × Nat) → List ((Nat × Nat) × Nat)) :
    runWorkers wideGraph (fun _ => 0) 2 (blockSize wideGraph.n) (fun _ => 0) (2 ^ 35 + k) poolStart =
        .error .outOfBounds ∧
      shardedContract wideGraph (fun _ => 0) 2 false 1 iterate (fun _ => 0) (2 ^ 35 + k) = .error .outOfBounds := by
  have hG : ∀ v, wideGraph.adj v = [] := fun _ => rfl
  have hn : wideGraph.n < 2 ^ 32 := by decide
  -- thread `0` takes the `65537` blocks, which end exactly at the last node
  obtain ⟨w0, hA⟩ := runWorkers_blocks (c := fun _ => 0) hG hn (show 0 < 65535 by decide) (show 0 < 2 by decide)
    65537 (p := poolStart) (by decide) (fun j hj => absurd hj (Nat.not_lt_zero _)) rfl
  let pA : Pool := ⟨poolStart.offset + 65537 * 65535, poolStart.tables, Function.update poolStart.workers 0 ⟨w0, .fetch⟩⟩
  obtain ⟨rA, hlA⟩ := liveWorkers_eq_cons (T := 2) (p := pA) (show 0 < 2 by decide)
    (fun j hj => absurd hj (Nat.not_lt_zero _)) rfl
  -- its next `fetch_add` finds the cursor at `n`: it returns, and the cursor wraps to `65534`
  let pB : Pool := ⟨65534, poolStart.tables, Function.update poolStart.workers 0 ⟨w0, .done⟩⟩
  have hB : workerStep wideGraph (fun _ => 0) 2 65535 pA 0 = .ok pB := by
    simp [workerStep, pA, pB, Pool.setWorker, wideGraph, poolStart]
  -- thread `1` takes the `65536` blocks from `65534` on, done by thread `0` already
  obtain ⟨w1, hC⟩ := runWorkers_blocks (c := fun _ => 0) hG hn (show 0 < 65535 by decide) (show 1 < 2 by decide)
    65536 (p := pB) (show 65534 + 65536 * 65535 ≤ 2 ^ 32 - 1 by decide)
    (fun j hj => by rw [show j = 0 by omega]; rfl) rfl
  let pC : Pool := ⟨pB.offset + 65536 * 65535, pB.tables, Function.update pB.workers 1 ⟨w1, .fetch⟩⟩
  let pD : Pool := ⟨65533, poolStart.tables, Function.update pB.workers 1 ⟨w1, .node (2 ^ 32 - 2) 65533⟩⟩
  have hD : workerStep wideGraph (fun _ => 0) 2 65535 pC 1 = .ok pD := by
    simp only [workerStep, pC, pB, Function.update_same]
    rw [if_neg (by decide), if_pos (by decide)]
    simp only [Pool.setWorker, Function.update_idem]
    rfl
  let w1' : Nat → Nat := Function.update w1 0 (toNodeWeight (w1 0 + 1))
  let pE : Pool := ⟨65533, poolStart.tables, Function.update pB.workers 1 ⟨w1', .arcs (2 ^ 32 - 2) 65533 none []⟩⟩
  have hE : workerStep wideGraph (fun _ => 0) 2 65535 pD 1 = .ok pE := by
    simp only [workerStep, pD, Function.update_same]
    rw [if_neg (by decide), if_pos (by decide)]
    simp only [Pool.setWorker, Function.update_idem]
    rfl
  let pF : Pool := ⟨65533, poolStart.tables, Function.update pB.workers 1 ⟨w1', .node (2 ^ 32 - 1) 65533⟩⟩
  have hF : workerStep wideGraph (fun _ => 0) 2 65535 pE 1 = .ok pF := by
    simp only [workerStep, pE, Function.update_same, Pool.setWorker, Function.update_idem]
    rfl
  have hX : workerStep wideGraph (fun _ => 0) 2 65535 pF 1 = .error .outOfBounds := by
    simp only [workerStep, pF, Function.update_same]
    rw [if_neg (by decide), if_neg (by decide)]
  have hlive1 : ∀ p : Pool, p.workers 0 = ⟨w0, .done⟩ → (p.workers 1).pc.isDone = false →
      ∃ rest, liveWorkers 2 p = 1 :: rest := fun p h0 h1 =>
    liveWorkers_eq_cons (show 1 < 2 by decide) (fun j hj => by rw [show j = 0 by omega, h0]; rfl) h1
  obtain ⟨rC, hlC⟩ := hlive1 pC rfl rfl
  obtain ⟨rD, hlD⟩ := hlive1 pD rfl rfl
  obtain ⟨rE, hlE⟩ := hlive1 pE rfl rfl
  obtain ⟨rF, hlF⟩ := hlive1 pF rfl rfl
  have hrun : runWorkers wideGraph (fun _ => 0) 2 (blockSize wideGraph.n) (fun _ => 0) (2 ^ 35 + k) poolStart =
      .error .outOfBounds := by
    -- the fuel of each stage is given explicitly: unifying it would fold the literals together
    obtain ⟨f, hf⟩ : ∃ f, 2 ^ 35 + k = f + 1 + 1 + 1 + 1 + 65536 * (2 * 65535 + 2) + 1 + 65537 * (2 * 65535 + 2) :=
      ⟨k + 17179738107, by omega⟩
    rw [blockSize_wideGraph, hf, hA (f + 1 + 1 + 1 + 1 + 65536 * (2 * 65535 + 2) + 1),
      runWorkers_first hlA hB (f + 1 + 1 + 1 + 1 + 65536 * (2 * 65535 + 2)), hC (f + 1 + 1 + 1 + 1),
      runWorkers_first hlC hD (f + 1 + 1 + 1), runWorkers_first hlD hE (f + 1 + 1), runWorkers_first hlE hF (f + 1)]
    exact runWorkers_first_error hlF hX f
  refine ⟨hrun, ?_⟩
  simp only [shardedContract, hrun]
  rfl

end Kahip
