import Kahip.Contract

/-!
# `parallel_fast_contract_clustering` on one thread

With `num_threads <= 1` the caller alone runs `process`: it takes blocks of
`max(1000, sqrt n)` nodes from the cursor `offset` (a `uint32_t`, advanced
by `fetch_add`), adds each node's weight to `my_block_infos` of its cluster,
and every arc between two clusters to one hash table, under the sorted key
of the pair, so that the two arcs of an undirected edge meet in one entry.
The entries, in the table's iteration order, then fill `building_tool`:
each key gives an arc from either end, weighing half the entry. From
`building_tool` the coarse graph is built node by node, with `2 * num_edges`
arcs, and the coarse nodes get the blocks of their fine nodes.

`my_block_infos` holds `NodeWeight`s, and the table holds `size_t`s: each
`EdgeWeight` is converted to `size_t` and added modulo `2 ^ 64`, and half an
entry is converted back to an `EdgeWeight`. The table's iteration order is
left open: `iterate` is any reordering of its entries. `(uint32_t) sqrt(n)` is
`Nat.sqrt n`.

The cursor never wraps on one thread (`blockSize_room`), so `process` visits
every node once, in order (`processBlocks_run`); the table then holds, per
pair of clusters, the weight of the arcs between them both ways
(`processNodes_spec`), and on a symmetric graph that is twice an even share,
whose half survives both conversions; the build is the quotient, with exactly
`2 * num_edges` calls to `new_edge` (`fastContractOneThread_spec`).
-/

namespace Kahip

/-- Modelled from the spec: `get_uint64_from_pair_sorted(a, b)` packs the
pair into one 64-bit key, smaller id first, and `get_pair_from_uint64`
unpacks it (neither is part of the sample); the key is the pair. -/
def pairSorted (a b : Nat) : Nat × Nat := if a ≤ b then (a, b) else (b, a)

/-- A value converted to `size_t`, an unsigned integer of 64 bits. -/
def toSizeT (w : Int) : Nat := (w % 2 ^ 64).toNat

/-- Adding converted values converts the sum. -/
theorem toSizeT_add (a b : Int) : (toSizeT a + toSizeT b) % 2 ^ 64 = toSizeT (a + b) := by
  unfold toSizeT; omega

/-- Half of twice a value, through `size_t`, converts to the value's
`EdgeWeight`. -/
theorem toEdgeWeight_half (q : Int) : toEdgeWeight ((toSizeT (2 * q) / 2 : Nat) : Int) = toEdgeWeight q := by
  unfold toEdgeWeight toSizeT
  rw [Int.bmod_def, Int.bmod_def]
  split <;> split <;> omega

/-- A value through `size_t` converts to the value's `EdgeWeight`. -/
theorem toEdgeWeight_sizeT (q : Int) : toEdgeWeight ((toSizeT q : Nat) : Int) = toEdgeWeight q := by
  unfold toEdgeWeight toSizeT
  rw [Int.bmod_def, Int.bmod_def]
  split <;> split <;> omega

/-- Modelled from the spec: the concurrent hash table `growt::uaGrow` (not
part of the sample), as its entries, a key at most once, with `size_t`
values. -/
structure EdgeTable where
  entries : List ((Nat × Nat) × Nat)

namespace EdgeTable

/-- `handle.insertOrUpdate(key, w, lhs += rhs, w)`: insert `w` under `key`,
or add it to the value there, in `size_t`. -/
def insertOrUpdate (t : EdgeTable) (key : Nat × Nat) (w : Int) : EdgeTable :=
  if t.entries.any (·.1 == key) then
    ⟨t.entries.map fun e => if e.1 = key then (key, (e.2 + toSizeT w) % 2 ^ 64) else e⟩
  else ⟨t.entries ++ [(key, toSizeT w)]⟩

/-- The keys in the table. -/
def keys (t : EdgeTable) : List (Nat × Nat) := t.entries.map (·.1)

end EdgeTable

/-- `block_size = max((uint32_t) sqrt(n), 1000u)`. -/
def blockSize (n : Nat) : Nat := max (Nat.sqrt n) 1000

variable (G : Graph) (c : Nat → Nat)

/-- The loop body of `process` for one node: its weight to its cluster's
`my_block_infos`, a `NodeWeight`, each arc to another cluster into the
table. -/
def processNode (acc : EdgeTable × (Nat → Nat)) (node : Nat) : EdgeTable × (Nat → Nat) :=
  let src := c node
  let infos := Function.update acc.2 src (toNodeWeight (acc.2 src + G.nodeWeight node))
  let t := (G.adj node).foldl (fun t x =>
    let tgt := c x.target
    if src ≠ tgt then t.insertOrUpdate (pairSorted src tgt) x.weight else t) acc.1
  (t, infos)

/-- `process()` from the cursor `offset` on, for at most `fuel` blocks: take
a block with `fetch_add`, stop once it starts past the last node, and walk
`node = begin; node != end; ++node`, which runs out of the node range if
`end` wrapped below `begin`. -/
def processBlocks (bs : Nat) : Nat → Nat → EdgeTable × (Nat → Nat) → Except Fault (EdgeTable × (Nat → Nat))
  | 0, _, _ => .error .diverges
  | fuel + 1, offset, acc =>
    let begin := offset
    let offset := (offset + bs) % 2 ^ 32
    let stop := (begin + bs) % 2 ^ 32
    let stop := if stop ≤ G.n then stop else G.n
    if G.n ≤ begin then .ok acc
    else if stop < begin then .error .outOfBounds
    else processBlocks bs fuel offset ((List.range' begin (stop - begin)).foldl (processNode G c) acc)

/-- The body of the loop over the table's entries: key `(a, b)` adds an arc
`a → b` and an arc `b → a` to `building_tool`, each weighing half the
entry, converted to `EdgeWeight`. -/
def addEntry (bt : Nat → List Arc) (e : (Nat × Nat) × Nat) : Nat → List Arc :=
  let bt := Function.update bt e.1.1 (bt e.1.1 ++ [Arc.ofWeight e.1.2 (e.2 / 2 : Nat)])
  Function.update bt e.1.2 (bt e.1.2 ++ [Arc.ofWeight e.1.1 (e.2 / 2 : Nat)])

/-- `building_tool` after the loop over the entries. -/
def buildingTool (entries : List ((Nat × Nat) × Nat)) : Nat → List Arc :=
  entries.foldl addEntry fun _ => []

/-- `e = coarser.new_edge(node, x.target)`, then `setEdgeWeight(e, x.weight)`. -/
def CoarseEdges.newArc (es : CoarseEdges) (x : Arc) : Except Fault CoarseEdges := do
  let (e, es) ← es.newEdge x.target
  pure (es.setEdgeWeight e x.weight)

/-- The loop over `building_tool`: node `p` with weight `block_infos[p]`,
then its arcs. -/
def buildNode (infos : Nat → Nat) (bt : Nat → List Arc) (b : Builder) (p : Nat) : Except Fault Builder := do
  let (node, b) ← b.newNode
  let b := b.setNodeWeight node (infos p)
  let es ← (bt p).foldlM CoarseEdges.newArc b.edges
  pure { b with edges := es }

/-- `coarser.setPartitionIndex(coarse_mapping[node], G.getPartitionIndex(node))`
for one fine node, and the second index with `combine`. -/
def copyLabel (L : Labels) (combine : Bool) (b : Builder) (v : Nat) : Builder :=
  let b := b.setPartitionIndex (c v) (L.part v)
  if combine then b.setSecondPartitionIndex (c v) (L.second v) else b

/-- `copyLabel` over the fine nodes. -/
def copyLabels (L : Labels) (combine : Bool) (b : Builder) : Builder :=
  (List.range G.n).foldl (copyLabel c L combine) b

/-- `parallel_fast_contract_clustering` with `num_threads <= 1`: the caller
runs `process` alone, for at most `fuel` blocks; `iterate` is the table's
iteration order. -/
def fastContractOneThread (L : Labels) (combine : Bool) (n' : Nat)
    (iterate : List ((Nat × Nat) × Nat) → List ((Nat × Nat) × Nat)) (fuel : Nat) : Except Fault Builder := do
  let (t, infos) ← processBlocks G c (blockSize G.n) fuel 0 (⟨[]⟩, fun _ => 0)
  let entries := iterate t.entries
  let bt := buildingTool entries
  let b ← (List.range n').foldlM (buildNode infos bt) (Builder.startConstruction n' (2 * entries.length))
  pure (copyLabels G c L combine b.finishConstruction)

/-! ## The table -/

/-- The weight of the entries of `L` under `key`. -/
def sumKey (L : List ((Nat × Nat) × Int)) (key : Nat × Nat) : Int :=
  ((L.filter (·.1 = key)).map (·.2)).sum

@[simp] theorem sumKey_nil (key : Nat × Nat) : sumKey [] key = 0 := rfl

@[simp] theorem sumKey_append (L L' : List ((Nat × Nat) × Int)) (key : Nat × Nat) :
    sumKey (L ++ L') key = sumKey L key + sumKey L' key := by
  simp [sumKey]

@[simp] theorem sumKey_singleton (e : (Nat × Nat) × Int) (key : Nat × Nat) :
    sumKey [e] key = if e.1 = key then e.2 else 0 := by
  by_cases h : e.1 = key <;> simp [sumKey, h]

/-- The table after the insertions `L`: one entry per key inserted, holding
the sum of the weights inserted under it, as a `size_t`. -/
structure TableInv (t : EdgeTable) (L : List ((Nat × Nat) × Int)) : Prop where
  nodup : t.keys.Nodup
  mem : ∀ k, k ∈ t.keys ↔ k ∈ L.map (·.1)
  value : ∀ e ∈ t.entries, e.2 = toSizeT (sumKey L e.1)

theorem tableInv_empty : TableInv ⟨[]⟩ [] := ⟨List.nodup_nil, by simp [EdgeTable.keys], by simp⟩

theorem TableInv.insertOrUpdate {t : EdgeTable} {L : List ((Nat × Nat) × Int)} (hi : TableInv t L)
    (k : Nat × Nat) (w : Int) : TableInv (t.insertOrUpdate k w) (L ++ [(k, w)]) := by
  unfold EdgeTable.insertOrUpdate
  split
  · -- the key is there: its value grows
    rename_i hk
    have hk' : k ∈ t.keys := by simpa [EdgeTable.keys] using hk
    have hkeys : (⟨t.entries.map fun e => if e.1 = k then (k, (e.2 + toSizeT w) % 2 ^ 64) else e⟩ :
        EdgeTable).keys = t.keys := by
      simp only [EdgeTable.keys, List.map_map]
      exact List.map_congr_left fun e _ => by by_cases h : e.1 = k <;> simp [h]
    refine ⟨hkeys ▸ hi.nodup, fun k' => ?_, fun e he => ?_⟩
    · rw [hkeys, hi.mem]; simp only [List.map_append, List.mem_append, List.map_cons, List.map_nil,
        List.mem_singleton]
      constructor
      · exact Or.inl
      · rintro (h | rfl)
        · exact h
        · exact (hi.mem k').1 hk'
    · obtain ⟨e0, he0, rfl⟩ := List.mem_map.1 he
      by_cases h : e0.1 = k
      · simp [h, hi.value e0 he0]
        exact toSizeT_add _ _
      · simp [h, Ne.symm h, hi.value e0 he0]
  · -- a new key
    rename_i hk
    have hk' : k ∉ t.keys := by simpa [EdgeTable.keys] using hk
    refine ⟨?_, fun k' => ?_, fun e he => ?_⟩
    · show ((t.entries ++ [(k, toSizeT w)]).map (·.1)).Nodup
      rw [List.map_append]
      exact List.nodup_append.2 ⟨hi.nodup, List.nodup_singleton _, List.disjoint_singleton.2 hk'⟩
    · have := hi.mem k'
      simp only [EdgeTable.keys] at this hk' ⊢
      simp [this]
    · rcases List.mem_append.1 he with he | he
      · have hne : e.1 ≠ k := fun h => hk' (h ▸ List.mem_map_of_mem _ he)
        simp [hi.value e he, hne, Ne.symm hne]
      · obtain rfl := List.mem_singleton.1 he
        have : sumKey L k = 0 := by
          rw [sumKey, List.filter_eq_nil_iff.2 fun e he h => hk' ((hi.mem k).2
            (List.mem_map.2 ⟨e, he, by simpa using h⟩))]
          rfl
        simp [this]

/-- Inserting the entries `L'` one by one. -/
def EdgeTable.insertAll (t : EdgeTable) (L' : List ((Nat × Nat) × Int)) : EdgeTable :=
  L'.foldl (fun t e => t.insertOrUpdate e.1 e.2) t

theorem TableInv.insertAll {t : EdgeTable} {L : List ((Nat × Nat) × Int)} (hi : TableInv t L)
    (L' : List ((Nat × Nat) × Int)) : TableInv (t.insertAll L') (L ++ L') := by
  induction L' generalizing t L with
  | nil => simpa [EdgeTable.insertAll] using hi
  | cons e L' ih => simpa [EdgeTable.insertAll] using ih (hi.insertOrUpdate e.1 e.2)

/-! ## `process` over the nodes -/

/-- The entries `process` inserts for `node`: its arcs to other clusters,
under the sorted key. -/
def Graph.cutEntries (node : Nat) : List ((Nat × Nat) × Int) :=
  (G.adj node).filterMap fun x =>
    if c node ≠ c x.target then some (pairSorted (c node) (c x.target), x.weight) else none

theorem processNode_fst (acc : EdgeTable × (Nat → Nat)) (node : Nat) :
    (processNode G c acc node).1 = acc.1.insertAll (G.cutEntries c node) := by
  simp only [processNode, Graph.cutEntries, EdgeTable.insertAll]
  generalize acc.1 = t
  induction G.adj node generalizing t with
  | nil => rfl
  | cons x l ih =>
    by_cases h : c node ≠ c x.target
    · simp only [List.foldl_cons, List.filterMap_cons, if_pos h]; exact ih _
    · simp only [List.foldl_cons, List.filterMap_cons, if_neg h]; exact ih _

theorem processNode_snd (acc : EdgeTable × (Nat → Nat)) (node : Nat) :
    (processNode G c acc node).2 =
      Function.update acc.2 (c node) (toNodeWeight (acc.2 (c node) + G.nodeWeight node)) := rfl

/-- `process` over a list of nodes, from `NodeWeight`s: the table holds
their cut arcs, and `my_block_infos` their weights per cluster, as
`NodeWeight`s. -/
theorem processNodes_spec (V : List Nat) {acc : EdgeTable × (Nat → Nat)} {L : List ((Nat × Nat) × Int)}
    (hi : TableInv acc.1 L) (hw : ∀ a, acc.2 a < 2 ^ 32) :
    TableInv (V.foldl (processNode G c) acc).1 (L ++ V.flatMap (G.cutEntries c)) ∧
      ∀ a, (V.foldl (processNode G c) acc).2 a =
        toNodeWeight (acc.2 a + ((V.filter (c · = a)).map G.nodeWeight).sum) := by
  induction V generalizing acc L with
  | nil => exact ⟨by simpa using hi, fun a => (toNodeWeight_of_lt (hw a)).symm⟩
  | cons v V ih =>
    obtain ⟨h1, h2⟩ := @ih (processNode G c acc v) _ (by rw [processNode_fst]; exact hi.insertAll _)
      (by rw [processNode_snd]; exact update_toNodeWeight_lt hw _ _)
    refine ⟨by simpa using h1, fun a => ?_⟩
    rw [List.foldl_cons, h2 a, processNode_snd]
    by_cases ha : c v = a
    · subst ha; simp [toNodeWeight_add_left, Nat.add_assoc]
    · simp [Function.update_noteq (Ne.symm ha), ha]

/-! ## The cursor -/

/-- On one thread the cursor does not wrap: some multiple of the block size
at or past the last node is still below `2 ^ 32`. -/
theorem blockSize_room {n : Nat} (hn : n < 2 ^ 32) : ∃ k, n ≤ k * blockSize n ∧ k * blockSize n < 2 ^ 32 := by
  have hle := Nat.sqrt_le n
  have hlt := Nat.lt_succ_sqrt n
  simp only [Nat.succ_eq_add_one] at hlt
  unfold blockSize
  rcases le_total (Nat.sqrt n) 1000 with h | h
  · -- small graphs: blocks of `1000`
    rw [max_eq_right h]
    refine ⟨n / 1000 + 1, by omega, ?_⟩
    have : n < 1001 * 1001 := lt_of_lt_of_le hlt (Nat.mul_le_mul (by omega) (by omega))
    omega
  · -- large graphs: blocks of `sqrt n`, and `sqrt n + 2` of them cover the nodes
    rw [max_eq_left h]
    have hs : Nat.sqrt n < 65536 := by
      by_contra hs
      have : 65536 * 65536 ≤ Nat.sqrt n * Nat.sqrt n := Nat.mul_le_mul (by omega) (by omega)
      omega
    have hsq : (Nat.sqrt n + 1) * (Nat.sqrt n + 1) = (Nat.sqrt n + 2) * Nat.sqrt n + 1 := by ring
    refine ⟨Nat.sqrt n + 2, by omega, ?_⟩
    have : (Nat.sqrt n + 2) * Nat.sqrt n ≤ 65537 * 65535 := Nat.mul_le_mul (by omega) (by omega)
    omega

variable {G c} in
/-- With room for every block, `process` from block `j` on visits the
remaining nodes once, in order, given fuel for one more block than there
are nodes left. -/
theorem processBlocks_run {bs : Nat} (hbs : 0 < bs) (hroom : ∀ j, j * bs < G.n → j * bs + bs < 2 ^ 32) :
    ∀ fuel j acc, G.n - j * bs < fuel → j * bs < 2 ^ 32 →
      processBlocks G c bs fuel (j * bs) acc =
        .ok ((List.range' (j * bs) (G.n - j * bs)).foldl (processNode G c) acc) := by
  intro fuel
  induction fuel with
  | zero => intro j acc h; omega
  | succ fuel ih =>
    intro j acc hf hj
    unfold processBlocks
    by_cases hn : G.n ≤ j * bs
    · simp [hn, Nat.sub_eq_zero_of_le hn]
    · have hr := hroom j (by omega)
      have hmod : (j * bs + bs) % 2 ^ 32 = (j + 1) * bs := by rw [Nat.mod_eq_of_lt hr]; ring
      have hstop : ¬ (if (j + 1) * bs ≤ G.n then (j + 1) * bs else G.n) < j * bs := by
        rw [Nat.succ_mul]; split <;> omega
      simp only [hn, if_false, hmod, hstop]
      rw [ih (j + 1) _ (by rw [Nat.succ_mul]; omega) (by rw [Nat.succ_mul]; omega), ← List.foldl_append]
      congr 2
      split
      · rename_i h
        rw [show (j + 1) * bs = j * bs + bs by ring] at h ⊢
        rw [show j * bs + bs - j * bs = bs by omega, show G.n - j * bs = bs + (G.n - (j * bs + bs)) by omega,
          List.range'_append_1, Nat.add_comm]
      · rename_i h
        rw [show G.n - (j + 1) * bs = 0 by omega, List.range'_zero, List.append_nil]

variable {G c} in
/-- With fewer than `2 ^ 32` nodes and fuel for every block, `process` on one
thread returns what the plain loop over the nodes computes. -/
theorem processBlocks_all (hn : G.n < 2 ^ 32) {fuel : Nat} (hfuel : G.n < fuel) :
    processBlocks G c (blockSize G.n) fuel 0 (⟨[]⟩, fun _ => 0) =
      .ok ((List.range G.n).foldl (processNode G c) (⟨[]⟩, fun _ => 0)) := by
  have hbs : 0 < blockSize G.n := lt_of_lt_of_le (by norm_num) (le_max_right _ _)
  obtain ⟨k, hk1, hk2⟩ := blockSize_room hn
  have hroom : ∀ j, j * blockSize G.n < G.n → j * blockSize G.n + blockSize G.n < 2 ^ 32 := fun j hj => by
    have : j < k := Nat.lt_of_mul_lt_mul_right (lt_of_lt_of_le hj hk1)
    have : (j + 1) * blockSize G.n ≤ k * blockSize G.n := Nat.mul_le_mul_right _ this
    rw [Nat.succ_mul] at this
    omega
  have hrun := processBlocks_run (c := c) hbs hroom fuel 0 (⟨[]⟩, fun _ => 0) (by omega) (by norm_num)
  simpa only [Nat.zero_mul, Nat.sub_zero, ← List.range_eq_range'] using hrun

/-- `heavyEdge` is taken in one block of `1000` nodes. -/
theorem blockSize_heavyEdge : blockSize heavyEdge.n = 1000 := by
  have h : Nat.sqrt 2 = 1 := le_antisymm (Nat.lt_succ_iff.1 (Nat.sqrt_lt'.2 (by decide))) (Nat.le_sqrt'.2 (by decide))
  simp only [blockSize, heavyEdge, h]
  rfl

/-! ## The entries per pair of clusters -/

theorem sumKey_cons (e : (Nat × Nat) × Int) (L : List ((Nat × Nat) × Int)) (key : Nat × Nat) :
    sumKey (e :: L) key = (if e.1 = key then e.2 else 0) + sumKey L key := by
  rw [← List.singleton_append, sumKey_append, sumKey_singleton]

theorem sumKey_flatMap {α : Type} (l : List α) (f : α → List ((Nat × Nat) × Int)) (key : Nat × Nat) :
    sumKey (l.flatMap f) key = (l.map fun u => sumKey (f u) key).sum := by
  induction l with
  | nil => rfl
  | cons u l ih => rw [List.flatMap_cons, sumKey_append, ih, List.map_cons, List.sum_cons]

theorem pairSorted_eq_iff {a b x y : Nat} :
    pairSorted x y = pairSorted a b ↔ (x = a ∧ y = b) ∨ (x = b ∧ y = a) := by
  unfold pairSorted
  split_ifs <;> simp only [Prod.mk.injEq] <;> omega

/-- One arc's share of the entry of the pair `{a, b}`: its weight, if it
runs between the two clusters, either way. -/
theorem pairSorted_share {a b x y : Nat} (hab : a ≠ b) (w : Int) :
    (if x ≠ y then (if pairSorted x y = pairSorted a b then w else 0) else 0) =
      (if x = a then (if y = b then w else 0) else 0) + (if x = b then (if y = a then w else 0) else 0) := by
  by_cases hxy : x = y
  · subst hxy
    by_cases h1 : x = a
    · subst h1; simp [hab]
    · simp [h1]
  · rw [if_pos hxy]
    by_cases h : pairSorted x y = pairSorted a b
    · rcases pairSorted_eq_iff.1 h with ⟨rfl, rfl⟩ | ⟨rfl, rfl⟩ <;> simp [h, hab, Ne.symm hab]
    · have := mt pairSorted_eq_iff.2 h
      rw [if_neg h]
      by_cases h1 : x = a <;> by_cases h2 : y = b <;> by_cases h3 : x = b <;> by_cases h4 : y = a <;>
        simp_all

theorem sumKey_cutArcs {a b : Nat} (hab : a ≠ b) (cu : Nat) (l : List Arc) :
    sumKey (l.filterMap fun x => if cu ≠ c x.target then some (pairSorted cu (c x.target), x.weight) else none)
        (pairSorted a b) =
      (if cu = a then sumTo (l.map fun x => ⟨c x.target, x.weight, x.weight_fits⟩) b else 0) +
        if cu = b then sumTo (l.map fun x => ⟨c x.target, x.weight, x.weight_fits⟩) a else 0 := by
  induction l with
  | nil => simp
  | cons x l ih =>
    have hshare := pairSorted_share hab (x := cu) (y := c x.target) x.weight
    rw [List.filterMap_cons, List.map_cons, sumTo_cons, sumTo_cons]
    dsimp only
    by_cases hne : cu ≠ c x.target
    · simp only [if_pos hne, sumKey_cons, ih] at hshare ⊢
      rw [hshare]
      split_ifs <;> ring
    · simp only [if_neg hne, ih]
      rw [not_not] at hne
      rw [← hne]
      by_cases h1 : cu = a
      · subst h1; simp [hab]
      · simp [h1]

theorem sumKey_cutEntries {a b : Nat} (hab : a ≠ b) (u : Nat) :
    sumKey (G.cutEntries c u) (pairSorted a b) =
      (if c u = a then sumTo (G.clusterArcs c u) b else 0) + if c u = b then sumTo (G.clusterArcs c u) a else 0 :=
  sumKey_cutArcs c hab (c u) (G.adj u)

/-- Every arc of the graph between clusters `a` and `b`, either way, under
the key of the pair. -/
def Graph.cutAll : List ((Nat × Nat) × Int) := (List.range G.n).flatMap (G.cutEntries c)

theorem sumKey_cutAll {a b : Nat} (hab : a ≠ b) :
    sumKey (G.cutAll c) (pairSorted a b) = G.quotientWeight c a b + G.quotientWeight c b a := by
  rw [Graph.cutAll, sumKey_flatMap, Graph.quotientWeight, Graph.quotientWeight, sum_range_eq_list,
    sum_range_eq_list, ← List.sum_map_add]
  exact congrArg List.sum (List.map_congr_left fun u _ => sumKey_cutEntries G c hab u)

theorem mem_cutAll {a b : Nat} (hab : a ≠ b) :
    pairSorted a b ∈ (G.cutAll c).map (·.1) ↔ G.Joined c a b ∨ G.Joined c b a := by
  simp only [Graph.cutAll, List.mem_map, List.mem_flatMap, List.mem_range, Graph.cutEntries,
    List.mem_filterMap, Graph.Joined, Graph.clusterArcs]
  constructor
  · rintro ⟨e, ⟨u, hu, x, hx, he⟩, hek⟩
    split at he
    · obtain rfl := Option.some.inj he
      rcases pairSorted_eq_iff.1 hek with ⟨h1, h2⟩ | ⟨h1, h2⟩
      · exact Or.inl ⟨u, hu, h1, _, ⟨x, hx, rfl⟩, h2⟩
      · exact Or.inr ⟨u, hu, h1, _, ⟨x, hx, rfl⟩, h2⟩
    · cases he
  · rintro (⟨u, hu, rfl, _, ⟨x, hx, rfl⟩, rfl⟩ | ⟨u, hu, rfl, _, ⟨x, hx, rfl⟩, rfl⟩)
    · exact ⟨_, ⟨u, hu, x, hx, by rw [if_pos hab]⟩, rfl⟩
    · refine ⟨_, ⟨u, hu, x, hx, by rw [if_pos (Ne.symm hab)]⟩, ?_⟩
      simp only [pairSorted]
      split_ifs <;> simp only [Prod.mk.injEq] <;> omega

/-! ## `building_tool` -/

/-- The arcs an entry adds to `building_tool[a]`. -/
def toolArcs (a : Nat) (e : (Nat × Nat) × Nat) : List Arc :=
  (if e.1.1 = a then [Arc.ofWeight e.1.2 (e.2 / 2 : Nat)] else []) ++
    if e.1.2 = a then [Arc.ofWeight e.1.1 (e.2 / 2 : Nat)] else []

theorem buildingTool_eq (E : List ((Nat × Nat) × Nat)) (a : Nat) : buildingTool E a = E.flatMap (toolArcs a) := by
  suffices h : ∀ bt0 : Nat → List Arc, E.foldl addEntry bt0 a = bt0 a ++ E.flatMap (toolArcs a) from h _
  induction E with
  | nil => simp
  | cons e E ih =>
    intro bt0
    rw [List.foldl_cons, ih, List.flatMap_cons, ← List.append_assoc]
    congr 1
    obtain ⟨⟨p, q⟩, w⟩ := e
    simp only [addEntry, Function.update_apply, toolArcs]
    by_cases h1 : p = a <;> by_cases h2 : q = a
    · subst h1 h2; simp
    · subst h1; simp [Ne.symm h2, h2]
    · subst h2; simp [Ne.symm h1, h1]
    · simp [Ne.symm h1, Ne.symm h2, h1, h2]

theorem mem_toolArcs {a : Nat} {e : (Nat × Nat) × Nat} {x : Arc} :
    x ∈ toolArcs a e ↔
      (e.1.1 = a ∧ x = Arc.ofWeight e.1.2 (e.2 / 2 : Nat)) ∨ (e.1.2 = a ∧ x = Arc.ofWeight e.1.1 (e.2 / 2 : Nat)) := by
  unfold toolArcs
  split_ifs <;> simp_all

/-- An arc an entry with a strictly sorted key adds to `building_tool[a]`
leads to the other end of the key. -/
theorem key_of_mem_toolArcs {a : Nat} {e : (Nat × Nat) × Nat} {x : Arc} (hs : e.1.1 < e.1.2)
    (hx : x ∈ toolArcs a e) :
    e.1 = pairSorted a x.target ∧ x.target ≠ a ∧ x.weight = toEdgeWeight (e.2 / 2 : Nat) := by
  rcases mem_toolArcs.1 hx with ⟨rfl, rfl⟩ | ⟨rfl, rfl⟩
  · exact ⟨by simp [pairSorted, le_of_lt hs], by simp; omega, Arc.ofWeight_weight _ _⟩
  · exact ⟨by simp [pairSorted, not_le.2 hs], by simp; omega, Arc.ofWeight_weight _ _⟩

/-- The entry of the pair `{a, b}` adds an arc to `b` to `building_tool[a]`. -/
theorem mem_toolArcs_of_key {a b : Nat} {e : (Nat × Nat) × Nat} (he : e.1 = pairSorted a b) :
    b ∈ (toolArcs a e).map (·.target) := by
  simp only [List.mem_map, mem_toolArcs]
  unfold pairSorted at he
  split at he
  · exact ⟨_, Or.inl ⟨by rw [he], rfl⟩, by simp [he]⟩
  · exact ⟨_, Or.inr ⟨by rw [he], rfl⟩, by simp [he]⟩

/-- Over entries with distinct, strictly sorted keys, `building_tool[a]`
has each target once. -/
theorem toolTargets_nodup (a : Nat) :
    ∀ E : List ((Nat × Nat) × Nat), (∀ e ∈ E, e.1.1 < e.1.2) → (E.map (·.1)).Nodup →
      ((E.flatMap (toolArcs a)).map (·.target)).Nodup
  | [], _, _ => List.nodup_nil
  | e :: E, hs, hk => by
    rw [List.flatMap_cons, List.map_append]
    rw [List.map_cons, List.nodup_cons] at hk
    refine List.nodup_append.2 ⟨?_, toolTargets_nodup a E (fun e' he' => hs e' (List.mem_cons_of_mem _ he')) hk.2,
      fun b hb hb' => ?_⟩
    · have := hs e (List.mem_cons_self _ _)
      unfold toolArcs
      by_cases h1 : e.1.1 = a
      · rw [if_pos h1, if_neg (by omega)]; simp
      · rw [if_neg h1]; split <;> simp
    · obtain ⟨x, hx, rfl⟩ := List.mem_map.1 hb
      obtain ⟨x', hx', hxx⟩ := List.mem_map.1 hb'
      obtain ⟨e', he', hx''⟩ := List.mem_flatMap.1 hx'
      have h1 := (key_of_mem_toolArcs (hs e (List.mem_cons_self _ _)) hx).1
      have h2 := (key_of_mem_toolArcs (hs e' (List.mem_cons_of_mem _ he')) hx'').1
      rw [hxx] at h2
      exact hk.1 (List.mem_map.2 ⟨e', he', h2.trans h1.symm⟩)

/-- Every entry with both ends below `n'` adds two arcs over the nodes
`0 .. n' - 1`. -/
theorem sum_length_toolArcs {n' : Nat} :
    ∀ E : List ((Nat × Nat) × Nat), (∀ e ∈ E, e.1.1 < n' ∧ e.1.2 < n') →
      ∑ a in Finset.range n', (E.flatMap (toolArcs a)).length = 2 * E.length
  | [], _ => by simp
  | e :: E, h => by
    have he := h e (List.mem_cons_self _ _)
    simp only [List.flatMap_cons, List.length_append, Finset.sum_add_distrib,
      sum_length_toolArcs E fun e' he' => h e' (List.mem_cons_of_mem _ he'), List.length_cons]
    have : ∀ a, (toolArcs a e).length = (if e.1.1 = a then 1 else 0) + if e.1.2 = a then 1 else 0 := fun a => by
      unfold toolArcs; split_ifs <;> simp
    simp only [this, Finset.sum_add_distrib, Finset.sum_ite_eq, Finset.mem_range, he.1, he.2, if_true]
    ring

/-! ## Building the coarse graph -/

namespace CoarseEdges

variable {s : CoarseEdges}

theorem newArc_ok {x : Arc} (h : s.count < s.cap) : s.newArc x = .ok (s.push x) := by
  simp [newArc, newEdge, h, bind, Except.bind, pure, Except.pure, push_setEdgeWeight]

/-- The arcs `l` appended one by one. -/
def pushAll (s : CoarseEdges) (l : List Arc) : CoarseEdges := l.foldl push s

@[simp] theorem pushAll_count (l : List Arc) : (s.pushAll l).count = s.count + l.length := by
  induction l generalizing s with
  | nil => rfl
  | cons x l ih => simp only [pushAll, List.foldl_cons] at ih ⊢; rw [ih]; simp; omega

@[simp] theorem pushAll_cap (l : List Arc) : (s.pushAll l).cap = s.cap := by
  induction l generalizing s with
  | nil => rfl
  | cons x l ih => simp only [pushAll, List.foldl_cons] at ih ⊢; rw [ih]; rfl

theorem pushAll_slot_lt (l : List Arc) {e : Nat} (h : e < s.count) : (s.pushAll l).slot e = s.slot e := by
  induction l generalizing s with
  | nil => rfl
  | cons x l ih =>
    simp only [pushAll, List.foldl_cons] at ih ⊢
    rw [ih (by simp; omega), push_slot_lt h]

theorem range_pushAll (l : List Arc) : (s.pushAll l).range s.count (s.count + l.length) = l := by
  induction l generalizing s with
  | nil => simp [range]
  | cons x l ih =>
    have := ih (s := s.push x)
    simp only [push_count] at this
    simp only [range, pushAll, List.foldl_cons, List.length_cons, Nat.add_sub_cancel_left] at this ⊢
    rw [List.range'_succ, List.map_cons, this, show List.foldl push (s.push x) l = (s.push x).pushAll l from rfl,
      pushAll_slot_lt l (by simp), push_slot_self]

theorem foldlM_newArc (l : List Arc) (h : s.count + l.length ≤ s.cap) :
    l.foldlM newArc s = .ok (s.pushAll l) := by
  induction l generalizing s with
  | nil => rfl
  | cons x l ih =>
    simp only [List.length_cons] at h
    rw [List.foldlM_cons, newArc_ok (by omega)]
    exact ih (by simp; omega)

end CoarseEdges

/-- What the loop over `building_tool` keeps after `p` nodes: node `q < p`
has weight `infos q`, as a `NodeWeight`, and, its range closed at the edge
count, the arcs `bt q`. -/
structure BuildInv (n' cap : Nat) (infos : Nat → Nat) (bt : Nat → List Arc) (p : Nat) (b : Builder) : Prop where
  count : b.nodes.count = p
  nodeCap : b.nodes.cap = n'
  edgeCap : b.edges.cap = cap
  edges : b.edges.count = ∑ q in Finset.range p, (bt q).length
  first : ∀ q < p, b.nodes.firstEdge q ≤ b.edges.count
  weight : ∀ q < p, b.nodes.weight q = toNodeWeight (infos q)
  arcs : ∀ q < p, b.finishConstruction.toGraph.adj q = bt q

theorem BuildInv.step {n' cap : Nat} {infos : Nat → Nat} {bt : Nat → List Arc} {p : Nat} {b : Builder}
    (hb : BuildInv n' cap infos bt p b) (hp : p < n') (hcap : ∑ q in Finset.range (p + 1), (bt q).length ≤ cap) :
    ∃ b', buildNode infos bt b p = .ok b' ∧ BuildInv n' cap infos bt (p + 1) b' := by
  have hn : b.newNode = .ok (b.nodes.count, { b with nodes := b.nodes.push b.edges.count }) := by
    simp [Builder.newNode, hb.count, hb.nodeCap, hp]
  rw [Finset.sum_range_succ, ← hb.edges, ← hb.edgeCap] at hcap
  have hf := CoarseEdges.foldlM_newArc (s := b.edges) (bt p) hcap
  have hbuild : buildNode infos bt b p = .ok ⟨{ b.nodes.push b.edges.count with
      weight := Function.update (b.nodes.push b.edges.count).weight b.nodes.count (toNodeWeight (infos p)),
      weight_lt := update_toNodeWeight_lt (b.nodes.push b.edges.count).weight_lt _ _ },
      b.edges.pushAll (bt p)⟩ := by
    simp only [buildNode, hn, bind, Except.bind, Builder.setNodeWeight, hf, pure, Except.pure]
  refine ⟨_, hbuild, ?_⟩
  refine ⟨by simp [CoarseNodes.push, hb.count], by simp [CoarseNodes.push, hb.nodeCap], by simp [hb.edgeCap],
    by simp [Finset.sum_range_succ, hb.edges], fun q hq => ?_, fun q hq => ?_, fun q hq => ?_⟩
  · simp only [CoarseNodes.push, Function.update_apply, CoarseEdges.pushAll_count]
    split
    · omega
    · have := hb.first q (by rw [hb.count] at *; omega); omega
  · simp only [CoarseNodes.push, Function.update_apply, hb.count]
    split
    · subst q; rfl
    · exact hb.weight q (by omega)
  · rw [finishConstruction_adj]
    simp only [CoarseNodes.push, CoarseEdges.pushAll_count]
    rw [hb.count]
    rcases Nat.lt_succ_iff_lt_or_eq.1 hq with hq | rfl
    · -- a node built before
      rw [update_update_firstEdge _ (by omega), update_update_firstEdge _ (by omega),
        CoarseEdges.range_congr (s := b.edges) fun e he => CoarseEdges.pushAll_slot_lt _ ?_]
      · have := hb.arcs q hq; rwa [finishConstruction_adj, hb.count] at this
      · have : Function.update b.nodes.firstEdge p b.edges.count (q + 1) ≤ b.edges.count := by
          by_cases h1 : q + 1 = p
          · rw [h1]; simp
          · rw [Function.update_noteq h1]; exact hb.first (q + 1) (by omega)
        omega
    · -- the new node
      rw [Function.update_noteq (by omega), Function.update_same, Function.update_same]
      exact CoarseEdges.range_pushAll (bt q)

theorem buildInv_run {n' cap : Nat} {infos : Nat → Nat} {bt : Nat → List Arc}
    (hcap : ∑ q in Finset.range n', (bt q).length ≤ cap) :
    ∀ k ≤ n', ∃ b, (List.range k).foldlM (buildNode infos bt) (Builder.startConstruction n' cap) = .ok b ∧
      BuildInv n' cap infos bt k b
  | 0, _ => ⟨_, rfl, ⟨rfl, rfl, rfl, by simp [Builder.startConstruction], by simp, by simp, by simp⟩⟩
  | k + 1, hk => by
    obtain ⟨b, h, hb⟩ := buildInv_run hcap k (by omega)
    have hsum : ∑ q in Finset.range (k + 1), (bt q).length ≤ cap :=
      le_trans (Finset.sum_le_sum_of_subset (Finset.range_subset.2 hk)) hcap
    obtain ⟨b', h', hb'⟩ := hb.step (by omega) hsum
    refine ⟨b', ?_, hb'⟩
    simp only [List.range_succ, List.foldlM_append, h, List.foldlM_cons, List.foldlM_nil, bind, Except.bind, h']
    rfl

/-! ## Symmetric graphs -/

namespace Graph

/-- The weight of the arcs of `l`, all to nodes below `n`, to cluster `b`,
summed over the nodes of `b`. -/
theorem sumTo_map_cluster (c : Nat → Nat) {n : Nat} (b : Nat) :
    ∀ l : List Arc, (∀ x ∈ l, x.target < n) →
      sumTo (l.map fun x => ⟨c x.target, x.weight, x.weight_fits⟩) b =
        ∑ v in Finset.range n, if c v = b then ((l.filter (·.target = v)).map (·.weight)).sum else 0
  | [], _ => by simp
  | x :: l, hl => by
    have hsplit : ∀ v, (if c v = b then (((x :: l).filter (·.target = v)).map (·.weight)).sum else 0) =
        (if v = x.target then (if c v = b then x.weight else 0) else 0) +
          if c v = b then ((l.filter (·.target = v)).map (·.weight)).sum else 0 := fun v => by
      by_cases h2 : x.target = v
      · subst h2; by_cases h1 : c x.target = b <;> simp [List.filter_cons, h1]
      · by_cases h1 : c v = b <;> simp [List.filter_cons, h1, h2, Ne.symm h2]
    rw [List.map_cons, sumTo_cons, sumTo_map_cluster c b l fun y hy => hl y (List.mem_cons_of_mem _ hy)]
    simp only [hsplit, Finset.sum_add_distrib, Finset.sum_ite_eq', Finset.mem_range,
      if_pos (hl x (List.mem_cons_self _ _))]

variable {G c} in
/-- On a closed graph, the arcs of `u` to cluster `b` weigh the arcs of `u`
to each node of `b`. -/
theorem sumTo_clusterArcs (hcl : G.Closed) (u b : Nat) :
    sumTo (G.clusterArcs c u) b = ∑ v in Finset.range G.n, if c v = b then G.wt u v else 0 :=
  sumTo_map_cluster c b (G.adj u) (hcl u)

variable {G c} in
/-- On a closed symmetric graph the arcs from `a` to `b` weigh what the arcs
from `b` to `a` weigh. -/
theorem quotientWeight_symm (hsym : G.Symmetric) (hcl : G.Closed) (a b : Nat) :
    G.quotientWeight c a b = G.quotientWeight c b a := by
  have hin : ∀ (p : Prop) [Decidable p] (f : Nat → Int),
      (if p then ∑ v in Finset.range G.n, f v else 0) = ∑ v in Finset.range G.n, if p then f v else 0 :=
    fun p _ f => by split <;> simp
  simp only [quotientWeight, sumTo_clusterArcs hcl, hin]
  rw [Finset.sum_comm]
  refine Finset.sum_congr rfl fun u _ => Finset.sum_congr rfl fun v _ => ?_
  by_cases h1 : c u = b <;> by_cases h2 : c v = a <;> simp [h1, h2, hsym u v]

end Graph

/-! ## The whole contraction -/

/-- Copying labels writes blocks only. -/
theorem copyLabels_toGraph (L : Labels) (combine : Bool) (b : Builder) :
    (copyLabels G c L combine b).toGraph = b.toGraph ∧ (copyLabels G c L combine b).edges = b.edges := by
  unfold copyLabels
  induction List.range G.n generalizing b with
  | nil => exact ⟨rfl, rfl⟩
  | cons v l ih =>
    obtain ⟨h1, h2⟩ := ih (copyLabel c L combine b v)
    simp only [List.foldl_cons, h1, h2]
    unfold copyLabel
    split <;> exact ⟨rfl, rfl⟩

theorem sum_filter_map {α β : Type} [AddCommMonoid β] (l : List α) (p : α → Prop) [DecidablePred p] (f : α → β) :
    ((l.filter p).map f).sum = (l.map fun v => if p v then f v else 0).sum := by
  induction l with
  | nil => rfl
  | cons v l ih => by_cases h : p v <;> simp [List.filter_cons, h, ih]

/-- On a closed symmetric graph, with the cursor within `uint32_t` and fuel
for every block, the one-thread path of `parallel_fast_contract_clustering`
returns the quotient, a pair of clusters joined by an arc either way getting
an arc each way, and makes exactly the `2 * num_edges` arcs it sized the
edge array for. -/
theorem fastContractOneThread_spec {G : Graph} {c : Nat → Nat} (L : Labels) (combine : Bool) {n' : Nat}
    {iterate : List ((Nat × Nat) × Nat) → List ((Nat × Nat) × Nat)} (hiter : ∀ l, (iterate l).Perm l)
    (hsym : G.Symmetric) (hcl : G.Closed) (hc : ∀ v < G.n, c v < n') (hn : G.n < 2 ^ 32)
    {fuel : Nat} (hfuel : G.n < fuel) :
    ∃ b, fastContractOneThread G c L combine n' iterate fuel = .ok (copyLabels G c L combine b) ∧
      G.IsQuotient c (G.Linked c) n' b.toGraph ∧ b.edges.count = b.edges.cap := by
  obtain ⟨htab, hinfos⟩ :=
    @processNodes_spec G c (List.range G.n) (⟨[]⟩, fun _ => 0) _ tableInv_empty fun _ => by norm_num
  simp only [List.nil_append] at htab
  set t := ((List.range G.n).foldl (processNode G c) (⟨[]⟩, fun _ => 0)).1
  set infos := ((List.range G.n).foldl (processNode G c) (⟨[]⟩, fun _ => 0)).2
  set E := iterate t.entries
  -- the entries: distinct keys, strictly sorted, of clusters below `n'`
  have hE : ∀ e, e ∈ E ↔ e ∈ t.entries := fun e => (hiter t.entries).mem_iff
  have hkeys : (E.map (·.1)).Nodup := ((hiter t.entries).map _).nodup_iff.2 htab.nodup
  have hgood : ∀ e ∈ E, e.1.1 < e.1.2 ∧ e.1.2 < n' ∧ e.1.1 < n' := fun e he => by
    have := (htab.mem e.1).1 (List.mem_map_of_mem _ ((hE e).1 he))
    simp only [Graph.cutAll, List.mem_map, List.mem_flatMap, List.mem_range, Graph.cutEntries,
      List.mem_filterMap] at this
    obtain ⟨e', ⟨u, hu, x, hx, he'⟩, hee⟩ := this
    split at he'
    · rename_i hne
      obtain rfl := Option.some.inj he'
      rw [← hee]
      have h1 := hc u hu
      have h2 := hc x.target (hcl u x hx)
      unfold pairSorted
      split <;> simp only <;> omega
    · cases he'
  have hvalue : ∀ e ∈ E, e.2 = toSizeT (sumKey (G.cutAll c) e.1) := fun e he => htab.value e ((hE e).1 he)
  -- the build
  have hlen : ∑ a in Finset.range n', (buildingTool E a).length = 2 * E.length := by
    simp only [buildingTool_eq]
    exact sum_length_toolArcs E fun e he => ⟨(hgood e he).2.2, (hgood e he).2.1⟩
  obtain ⟨b, hb, hbi⟩ := @buildInv_run n' _ infos (buildingTool E) (le_of_eq hlen) n' le_rfl
  refine ⟨b.finishConstruction, ?_, ⟨?_, fun a ha => ?_, fun a ha => ?_⟩, ?_⟩
  · simp only [fastContractOneThread, processBlocks_all hn hfuel, bind, Except.bind, hb, pure, Except.pure]
  · exact hbi.count
  · show b.nodes.weight a = _
    rw [hbi.weight a ha, hinfos a, sum_filter_map, Graph.clusterWeight, sum_range_eq_list]
    simp
  · rw [hbi.arcs a ha, buildingTool_eq]
    refine ⟨toolTargets_nodup a E (fun e he => (hgood e he).1) hkeys, fun x hx => ?_, fun b' hb' => ?_⟩
    · obtain ⟨e, heE, hxe⟩ := List.mem_flatMap.1 hx
      obtain ⟨hkey, hne, hw⟩ := key_of_mem_toolArcs (hgood e heE).1 hxe
      refine ⟨hne, ?_⟩
      rw [hw, hvalue e heE, hkey, sumKey_cutAll G c (Ne.symm hne), ← Graph.quotientWeight_symm hsym hcl x.target a,
        ← two_mul, toEdgeWeight_half]
    · rw [Graph.Linked, ← mem_cutAll G c (Ne.symm hb'), Graph.cutAll, ← htab.mem, EdgeTable.keys]
      constructor
      · intro h
        obtain ⟨x, hx, rfl⟩ := List.mem_map.1 h
        obtain ⟨e, heE, hxe⟩ := List.mem_flatMap.1 hx
        exact List.mem_map.2 ⟨e, (hE e).1 heE, (key_of_mem_toolArcs (hgood e heE).1 hxe).1⟩
      · intro h
        obtain ⟨e, he, hkey⟩ := List.mem_map.1 h
        obtain ⟨x, hx, hxb⟩ := List.mem_map.1 (mem_toolArcs_of_key hkey)
        exact List.mem_map.2 ⟨x, List.mem_flatMap.2 ⟨e, (hE e).2 he, hx⟩, hxb⟩
  · show b.edges.count = b.edges.cap
    rw [hbi.edges, hbi.edgeCap, hlen]

end Kahip
