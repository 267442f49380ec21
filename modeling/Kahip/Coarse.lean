import Kahip.Commit
import Mathlib.Algebra.Order.BigOperators.Group.Finset
import Mathlib.Algebra.BigOperators.Ring

/-!
# The coarse graph under construction, and the quotient it should be

Every contraction builds the coarser level through the incremental
interface of `graph_access`: `start_construction(nodes, edges)` sizes the
node and edge arrays, `new_node` and `new_edge` append in node order,
`setNodeWeight`, `setEdgeWeight` and `setPartitionIndex` write one slot,
and `finish_construction` closes the range of the last node. The builder is
not part of the sample; `Builder` models it from the spec, as a node array
and an edge array, so that what writes only edges (`visit_edge`) visibly
leaves the nodes alone.

What a contraction should build is the quotient of the fine graph under the
cluster map `c`: coarse node `a` weighs `clusterWeight a`, and has one arc to
every other cluster `b` that a fine arc leads to (`Joined`), weighing
`quotientWeight a b`; the code stores those sums as a `NodeWeight` and an
`EdgeWeight`. `IsQuotient` says that of a finished graph, with the sums
converted; where they fit (`QuotientFits`) they are the sums themselves. The
sums over one cluster of a matching, `{v, M v}`, are `sum_cluster`.
-/

namespace Kahip

open Finset

/-! ## The builder -/

/-- The node array of the builder: its capacity, the nodes made so far, and
per node `firstEdge`, weight (a `NodeWeight`), block and second block; and
the partition count. -/
structure CoarseNodes where
  cap : Nat
  count : Nat
  firstEdge : Nat → Nat
  weight : Nat → Nat
  part : Nat → Nat
  secondPart : Nat → Nat
  partitionCount : Nat
  weight_lt : ∀ v, weight v < 2 ^ 32

/-- The edge array of the builder: its capacity, the edges made so far, and
the slots. -/
structure CoarseEdges where
  cap : Nat
  count : Nat
  slot : Nat → Arc

/-- Modelled from the spec: the builder of `graph_access` (not part of the
sample) in its incremental mode, a node array and an edge array. -/
structure Builder where
  nodes : CoarseNodes
  edges : CoarseEdges

/-- The array with one more node, whose range starts at `firstEdge`. -/
def CoarseNodes.push (ns : CoarseNodes) (firstEdge : Nat) : CoarseNodes :=
  { ns with count := ns.count + 1, firstEdge := Function.update ns.firstEdge ns.count firstEdge }

namespace CoarseEdges

/-- The array with one more slot, holding `x`. -/
def push (es : CoarseEdges) (x : Arc) : CoarseEdges :=
  { es with count := es.count + 1, slot := Function.update es.slot es.count x }

/-- `new_edge(node, target)`: the next slot, with weight `0`; past the
capacity passed to `start_construction` the builder fails. -/
def newEdge (es : CoarseEdges) (target : Nat) : Except Fault (Nat × CoarseEdges) :=
  if es.count < es.cap then .ok (es.count, es.push ⟨target, 0, by decide⟩) else .error .outOfBounds

/-- `setEdgeWeight(e, w)`, `w` converted to `EdgeWeight`. -/
def setEdgeWeight (es : CoarseEdges) (e : Nat) (w : Int) : CoarseEdges :=
  { es with slot := Function.update es.slot e (Arc.ofWeight (es.slot e).target w) }

/-- The arcs in the slots `[lo, hi)`. -/
def range (es : CoarseEdges) (lo hi : Nat) : List Arc := (List.range' lo (hi - lo)).map es.slot

end CoarseEdges

namespace Builder

/-- `start_construction(nodes, edges)`. -/
def startConstruction (nodes edges : Nat) : Builder :=
  ⟨⟨nodes, 0, fun _ => 0, fun _ => 0, fun _ => 0, fun _ => 0, 0, fun _ => by norm_num⟩,
    ⟨edges, 0, fun _ => ⟨0, 0, by decide⟩⟩⟩

/-- `new_node()`: the next node, whose range starts at the current edge
count. -/
def newNode (b : Builder) : Except Fault (Nat × Builder) :=
  if b.nodes.count < b.nodes.cap then .ok (b.nodes.count, { b with nodes := b.nodes.push b.edges.count })
  else .error .outOfBounds

/-- `setNodeWeight(v, w)`, `w` converted to `NodeWeight`. -/
def setNodeWeight (b : Builder) (v w : Nat) : Builder :=
  { b with nodes := { b.nodes with weight := Function.update b.nodes.weight v (toNodeWeight w)
                                   weight_lt := update_toNodeWeight_lt b.nodes.weight_lt v w } }

/-- `setPartitionIndex(v, p)`. -/
def setPartitionIndex (b : Builder) (v p : Nat) : Builder :=
  { b with nodes := { b.nodes with part := Function.update b.nodes.part v p } }

/-- `setSecondPartitionIndex(v, p)`. -/
def setSecondPartitionIndex (b : Builder) (v p : Nat) : Builder :=
  { b with nodes := { b.nodes with secondPart := Function.update b.nodes.secondPart v p } }

/-- `set_partition_count(k)`. -/
def setPartitionCount (b : Builder) (k : Nat) : Builder :=
  { b with nodes := { b.nodes with partitionCount := k } }

/-- `forall_out_edges(coarser, e, v)` on the node under construction: its
range runs to the current edge count. -/
def outEdges (b : Builder) (v : Nat) : List Nat :=
  List.range' (b.nodes.firstEdge v) (b.edges.count - b.nodes.firstEdge v)

/-- `finish_construction()`: the range of the last node ends at the edge
count. -/
def finishConstruction (b : Builder) : Builder :=
  { b with nodes := { b.nodes with firstEdge := Function.update b.nodes.firstEdge b.nodes.count b.edges.count } }

/-- The finished coarse graph: node `a` has the arcs of its CSR range. -/
def toGraph (b : Builder) : Graph :=
  ⟨b.nodes.count, b.nodes.weight, fun a => b.edges.range (b.nodes.firstEdge a) (b.nodes.firstEdge (a + 1)),
    b.nodes.weight_lt⟩

end Builder

/-! ## The quotient -/

/-- The sum of the weights of the arcs of `L` to `t`. -/
def sumTo (L : List Arc) (t : Nat) : Int := ((L.filter (·.target = t)).map (·.weight)).sum

@[simp] theorem sumTo_nil (t : Nat) : sumTo [] t = 0 := rfl

@[simp] theorem sumTo_append (L L' : List Arc) (t : Nat) : sumTo (L ++ L') t = sumTo L t + sumTo L' t := by
  simp [sumTo]

@[simp] theorem sumTo_singleton (x : Arc) (t : Nat) : sumTo [x] t = if x.target = t then x.weight else 0 := by
  by_cases h : x.target = t <;> simp [sumTo, h]

theorem sumTo_cons (x : Arc) (L : List Arc) (t : Nat) :
    sumTo (x :: L) t = (if x.target = t then x.weight else 0) + sumTo L t := by
  rw [← List.singleton_append, sumTo_append, sumTo_singleton]

/-- A sum over `Finset.range` is the sum over `List.range`. -/
theorem sum_range_eq_list {β : Type} [AddCommMonoid β] (n : Nat) (f : Nat → β) :
    ∑ i in range n, f i = ((List.range n).map f).sum := by
  induction n with
  | zero => rfl
  | succ n ih => rw [sum_range_succ, ih, List.range_succ, List.map_append, List.sum_append]; simp

theorem sumTo_eq_zero {L : List Arc} {t : Nat} (h : t ∉ L.map (·.target)) : sumTo L t = 0 := by
  rw [sumTo, List.filter_eq_nil_iff.2 fun x hx ht => h (List.mem_map.2 ⟨x, hx, by simpa using ht⟩)]
  rfl

namespace Graph

variable (G : Graph) (c : Nat → Nat)

/-- `number_of_edges()`: every arc, so every undirected edge twice. -/
def numberOfEdges : Nat := ∑ v in range G.n, (G.adj v).length

/-- The out-edges of `u` with their targets replaced by their clusters
(`new_edge_targets`). -/
def clusterArcs (u : Nat) : List Arc := (G.adj u).map fun x => ⟨c x.target, x.weight, x.weight_fits⟩

@[simp] theorem length_clusterArcs (u : Nat) : (G.clusterArcs c u).length = (G.adj u).length := by
  simp [clusterArcs]

/-- The arcs of `v` and, if it is matched, of its partner. -/
def pairArcs (M : Nat → Nat) (v : Nat) : List Arc :=
  G.clusterArcs c v ++ if v ≠ M v then G.clusterArcs c (M v) else []

/-- The total weight of the fine nodes of cluster `a`. -/
def clusterWeight (a : Nat) : Nat := ∑ v in range G.n, if c v = a then G.nodeWeight v else 0

/-- The weight of the fine arcs from cluster `a` to cluster `b`. -/
def quotientWeight (a b : Nat) : Int := ∑ u in range G.n, if c u = a then sumTo (G.clusterArcs c u) b else 0

/-- Some fine arc leads from cluster `a` to cluster `b`. -/
def Joined (a b : Nat) : Prop := ∃ u < G.n, c u = a ∧ b ∈ (G.clusterArcs c u).map (·.target)

instance (a b : Nat) : Decidable (G.Joined c a b) :=
  inferInstanceAs (Decidable (∃ u < G.n, c u = a ∧ b ∈ (G.clusterArcs c u).map fun x : Arc => x.target))

/-- Some fine arc joins clusters `a` and `b`, one way or the other. -/
def Linked (a b : Nat) : Prop := G.Joined c a b ∨ G.Joined c b a

/-- The arcs of coarse node `a` are those of the quotient: one per other
cluster `b` with `J a b` (a fine arc leads there, `Joined`, or joins the
two either way, `Linked`), weighing the fine arcs from `a` to `b`, as an
`EdgeWeight`. -/
structure QuotientArcs (J : Nat → Nat → Prop) (a : Nat) (out : List Arc) : Prop where
  nodup : (out.map (·.target)).Nodup
  weight : ∀ x ∈ out, x.target ≠ a ∧ x.weight = toEdgeWeight (G.quotientWeight c a x.target)
  joined : ∀ b, b ≠ a → (b ∈ out.map (·.target) ↔ J a b)

/-- `H` is the quotient of `G` under `c`, with `n'` coarse nodes, its arcs
where `J` holds, and its weights the sums as the code stores them. -/
structure IsQuotient (J : Nat → Nat → Prop) (n' : Nat) (H : Graph) : Prop where
  n : H.n = n'
  weight : ∀ a < n', H.nodeWeight a = toNodeWeight (G.clusterWeight c a)
  arcs : ∀ a < n', G.QuotientArcs c J a (H.adj a)

/-- No sum of the quotient overflows: every cluster below `n'` weighs less
than `2 ^ 32`, and the fine arcs from it to any cluster weigh an
`EdgeWeight`. -/
def QuotientFits (n' : Nat) : Prop :=
  ∀ a < n', G.clusterWeight c a < 2 ^ 32 ∧ ∀ b, FitsEdgeWeight (G.quotientWeight c a b)

/-! ## Sums over one cluster of a matching -/

/-- The matching `M` is an involution on the nodes, and the clusters of `c`
are its pairs `{v, M v}`. -/
structure MatchingClusters (M : Nat → Nat) : Prop where
  lt : ∀ v < G.n, M v < G.n
  invol : ∀ v < G.n, M (M v) = v
  pair : ∀ u < G.n, ∀ v < G.n, c u = c v ↔ u = v ∨ u = M v

variable {G c} {M : Nat → Nat}

/-- A sum over the nodes of the cluster of `v` is the sum over `v` and its
partner. -/
theorem sum_cluster {β : Type} [AddCommMonoid β] (hm : G.MatchingClusters c M) {v : Nat}
    (hv : v < G.n) (f : Nat → β) :
    ∑ u in range G.n, (if c u = c v then f u else 0) = f v + if v ≠ M v then f (M v) else 0 := by
  rw [← sum_filter]
  have hfilter : (range G.n).filter (fun u => c u = c v) = {v, M v} := by
    ext u
    simp only [mem_filter, mem_range, mem_insert, mem_singleton]
    constructor
    · rintro ⟨hu, h⟩
      exact (hm.pair u hu v hv).1 h
    · rintro (rfl | rfl)
      · exact ⟨hv, rfl⟩
      · exact ⟨hm.lt v hv, (hm.pair _ (hm.lt v hv) v hv).2 (Or.inr rfl)⟩
  rw [hfilter]
  by_cases hp : v = M v
  · rw [← hp]; simp
  · rw [sum_pair hp]; simp [hp]

/-! ## What the quotient keeps

A partition of the coarse graph that gives every cluster the block of its
fine nodes has the fine partition's block weights (`IsQuotient.blockWeightOf`)
and its cut (`IsQuotient.edgeCut`): both are sums over pairs of clusters,
once summed over the coarse nodes and once over the fine ones. -/

theorem quotientWeight_eq_zero {a b : Nat} (h : ¬G.Joined c a b) : G.quotientWeight c a b = 0 := by
  refine sum_eq_zero fun u hu => ?_
  split
  · exact sumTo_eq_zero fun hb => h ⟨u, mem_range.1 hu, by assumption, hb⟩
  · rfl

/-- Clusters joined to another are cluster ids, so below `n'`. -/
theorem Linked.lt (hcl : G.Closed) {n' : Nat} (hc : ∀ v < G.n, c v < n') {a b : Nat}
    (h : G.Linked c a b) : b < n' := by
  rcases h with ⟨u, _, -, hb⟩ | ⟨u, hu, rfl, -⟩
  · simp only [clusterArcs, List.map_map, List.mem_map, Function.comp] at hb
    obtain ⟨y, hy, rfl⟩ := hb
    exact hc _ (hcl u y hy)
  · exact hc u hu

/-- A sum over arcs with targets below `N`, of their weights where the target
is not in `Q`, is summed target by target. -/
theorem sum_arcs_eq_sum_sumTo {N : Nat} (Q : Nat → Prop) [DecidablePred Q] :
    ∀ L : List Arc, (∀ x ∈ L, x.target < N) →
      (L.map fun x => if Q x.target then 0 else x.weight).sum = ∑ b in range N, if Q b then 0 else sumTo L b
  | [], _ => by simp
  | x :: L, hL => by
    have hsplit : ∀ b, (if Q b then 0 else sumTo (x :: L) b) =
        (if b = x.target then (if Q b then 0 else x.weight) else 0) + if Q b then 0 else sumTo L b := fun b => by
      rw [sumTo_cons]
      by_cases h : b = x.target
      · subst h; split <;> simp
      · simp [h, Ne.symm h]
    rw [List.map_cons, List.sum_cons, sum_arcs_eq_sum_sumTo Q L fun y hy => hL y (List.mem_cons_of_mem _ hy)]
    simp only [hsplit, sum_add_distrib, sum_ite_eq', mem_range, if_pos (hL x (List.mem_cons_self _ _))]

/-- A sum over arcs with distinct targets below `N` is a sum over the
targets below `N`, if the summand is `0` at every other target. -/
theorem sum_targets_eq_sum_range {out : List Arc} {N : Nat} (hnd : (out.map (·.target)).Nodup)
    (hlt : ∀ x ∈ out, x.target < N) (F : Nat → Int) (hF : ∀ b < N, b ∉ out.map (·.target) → F b = 0) :
    (out.map fun x => F x.target).sum = ∑ b in range N, F b := by
  rw [show (out.map fun x => F x.target) = (out.map (·.target)).map F by simp [Function.comp_def],
    ← List.sum_toFinset F hnd]
  refine sum_subset (fun b hb => ?_) fun b hb hnot => hF b (mem_range.1 hb) (by simpa using hnot)
  obtain ⟨x, hx, rfl⟩ := List.mem_map.1 (List.mem_toFinset.1 hb)
  exact mem_range.2 (hlt x hx)

variable {J : Nat → Nat → Prop} {n' : Nat} {H : Graph} {P P' : Nat → Nat}

/-- Where the sums fit, a coarse node weighs its cluster. -/
theorem IsQuotient.nodeWeight_eq (hq : G.IsQuotient c J n' H) (hf : G.QuotientFits c n') {a : Nat}
    (ha : a < n') : H.nodeWeight a = G.clusterWeight c a := by
  rw [hq.weight a ha, toNodeWeight_of_lt (hf a ha).1]

/-- Where the sums fit, a coarse arc weighs the fine arcs it stands for. -/
theorem IsQuotient.arcWeight_eq (hq : G.IsQuotient c J n' H) (hf : G.QuotientFits c n') {a : Nat}
    (ha : a < n') {x : Arc} (hx : x ∈ H.adj a) : x.weight = G.quotientWeight c a x.target := by
  rw [((hq.arcs a ha).weight x hx).2, toEdgeWeight_of_fits ((hf a ha).2 _)]

/-- Where the sums fit, the coarse blocks weigh what the fine ones do. -/
theorem IsQuotient.blockWeightOf (hq : G.IsQuotient c J n' H) (hf : G.QuotientFits c n')
    (hc : ∀ v < G.n, c v < n') (hP : ∀ v < G.n, P' (c v) = P v) (k : Nat) :
    H.blockWeightOf P' k = G.blockWeightOf P k := by
  have hcluster : ∀ a ∈ range n', (if P' a = k then (H.nodeWeight a : Int) else 0) =
      ∑ v in range G.n, if c v = a then (if P' a = k then (G.nodeWeight v : Int) else 0) else 0 :=
    fun a ha => by
      rw [hq.nodeWeight_eq hf (mem_range.1 ha), clusterWeight]
      split_ifs
      · simp only [Nat.cast_sum, Nat.cast_ite, Nat.cast_zero]
      · simp
  rw [Graph.blockWeightOf, Graph.blockWeightOf, hq.n, sum_congr rfl hcluster, sum_comm]
  refine sum_congr rfl fun v hv => ?_
  rw [sum_ite_eq (range n') (c v), if_pos (mem_range.2 (hc v (mem_range.1 hv))), hP v (mem_range.1 hv)]

/-- The arcs between distinct blocks weigh the same in the coarse graph as
in the fine one, if every coarse arc goes where a fine arc joins the two
clusters either way, and every fine arc between clusters has its coarse
arc. -/
theorem IsQuotient.arcSum (hq : G.IsQuotient c J n' H) (hf : G.QuotientFits c n') (hcl : G.Closed)
    (hc : ∀ v < G.n, c v < n') (hJ : ∀ a b, J a b → G.Linked c a b) (hjoin : ∀ a b, G.Joined c a b → J a b)
    (hP : ∀ v < G.n, P' (c v) = P v) :
    H.arcSum (fun a x => if P' a = P' x.target then 0 else x.weight) =
      G.arcSum (fun v x => if P v = P x.target then 0 else x.weight) := by
  have hH : ∀ a ∈ range n', ((H.adj a).map fun x => if P' a = P' x.target then 0 else x.weight).sum =
      ∑ b in range n', if P' a = P' b then 0 else G.quotientWeight c a b := fun a ha => by
    have hqa := hq.arcs a (mem_range.1 ha)
    rw [List.map_congr_left fun x hx => by rw [hq.arcWeight_eq hf (mem_range.1 ha) hx]]
    refine sum_targets_eq_sum_range hqa.nodup (fun x hx => (hJ a _ ((hqa.joined _ (hqa.weight x hx).1).1
      (List.mem_map_of_mem _ hx))).lt hcl hc) (fun b => if P' a = P' b then 0 else G.quotientWeight c a b)
      fun b _ hb => ?_
    by_cases hba : b = a
    · simp [hba]
    · dsimp only
      rw [quotientWeight_eq_zero fun h => hb ((hqa.joined b hba).2 (hjoin a b h)), ite_self]
  have hG : ∀ u ∈ range G.n, ((G.adj u).map fun x => if P u = P x.target then 0 else x.weight).sum =
      ∑ b in range n', if P' (c u) = P' b then 0 else sumTo (G.clusterArcs c u) b := fun u hu => by
    rw [← sum_arcs_eq_sum_sumTo _ _ fun x hx => ?_, clusterArcs, List.map_map]
    · refine congrArg List.sum (List.map_congr_left fun x hx => ?_)
      simp only [Function.comp, hP u (mem_range.1 hu), hP _ (hcl u x hx)]
    · simp only [clusterArcs, List.mem_map] at hx
      obtain ⟨y, hy, rfl⟩ := hx
      exact hc _ (hcl u y hy)
  have hin : ∀ (q : Prop) [Decidable q] (f : Nat → Int),
      (if q then 0 else ∑ u in range G.n, f u) = ∑ u in range G.n, if q then 0 else f u :=
    fun q _ f => by split <;> simp
  have hout : ∀ (q : Prop) [Decidable q] (f : Nat → Int),
      ∑ b in range n', (if q then f b else 0) = if q then ∑ b in range n', f b else 0 :=
    fun q _ f => by split <;> simp
  rw [Graph.arcSum, Graph.arcSum, hq.n, sum_congr rfl hH, sum_congr rfl hG]
  simp only [quotientWeight, hin]
  rw [sum_congr rfl fun a _ => sum_comm, sum_comm]
  refine sum_congr rfl fun u hu => ?_
  have hsplit : ∀ a b, (if P' a = P' b then (0 : Int) else if c u = a then sumTo (G.clusterArcs c u) b else 0) =
      if c u = a then (if P' a = P' b then 0 else sumTo (G.clusterArcs c u) b) else 0 :=
    fun a b => by split_ifs <;> rfl
  simp only [hsplit, hout]
  rw [sum_ite_eq, if_pos (mem_range.2 (hc u (mem_range.1 hu)))]

/-- Where the sums fit, the coarse cut is the fine one. -/
theorem IsQuotient.edgeCut (hq : G.IsQuotient c J n' H) (hf : G.QuotientFits c n') (hcl : G.Closed)
    (hc : ∀ v < G.n, c v < n') (hJ : ∀ a b, J a b → G.Linked c a b) (hjoin : ∀ a b, G.Joined c a b → J a b)
    (hP : ∀ v < G.n, P' (c v) = P v) : H.edgeCut P' = G.edgeCut P := by
  rw [Graph.edgeCut, Graph.edgeCut, hq.arcSum hf hcl hc hJ hjoin hP]

end Graph

/-! ## A small instance -/

/-- Two nodes joined by one edge. -/
def edge01 : Graph :=
  ⟨2, fun _ => 1, fun v => if v = 0 then [⟨1, 1, by decide⟩] else if v = 1 then [⟨0, 1, by decide⟩] else [],
    fun _ => by norm_num⟩

/-- Two nodes of weight `2 ^ 31` joined by one edge: together they weigh
`2 ^ 32`, one more than a `NodeWeight` holds. -/
def heavyEdge : Graph :=
  ⟨2, fun _ => 2 ^ 31, fun v => if v = 0 then [⟨1, 1, by decide⟩] else if v = 1 then [⟨0, 1, by decide⟩] else [],
    fun _ => show 2 ^ 31 < 2 ^ 32 by decide⟩

theorem edge01_closed : edge01.Closed := by
  intro v a ha
  simp only [edge01] at ha
  split_ifs at ha <;> simp only [List.mem_singleton, List.not_mem_nil] at ha <;> subst ha <;> decide

theorem edge01_wt (u v : Nat) : edge01.wt u v = if (u = 0 ∧ v = 1) ∨ (u = 1 ∧ v = 0) then 1 else 0 := by
  simp only [Graph.wt, edge01]
  by_cases h0 : u = 0
  · subst h0
    by_cases h1 : v = 1
    · simp [List.filter_cons, h1]
    · simp [List.filter_cons, h1, Ne.symm h1]
  · by_cases h1 : u = 1
    · subst h1
      by_cases h2 : v = 0
      · simp [List.filter_cons, h2]
      · simp [List.filter_cons, h2, Ne.symm h2]
    · simp [h0, h1]

theorem edge01_symmetric : edge01.Symmetric := fun u v => by
  simp only [edge01_wt]
  split_ifs <;> omega

/-- The matching of `edge01`: both nodes in one cluster. -/
theorem edge01_matching : edge01.MatchingClusters (fun _ => 0) (fun v => 1 - v) :=
  ⟨by decide, by decide, by decide⟩

/-- The sums of `edge01`'s one cluster fit their types. -/
theorem edge01_fits : edge01.QuotientFits (fun _ => 0) 1 := by
  intro a ha
  obtain rfl : a = 0 := by omega
  refine ⟨by decide, fun b => ?_⟩
  by_cases hb : b = 0
  · subst hb; decide
  · simp [Graph.quotientWeight, Graph.clusterArcs, edge01, sumTo, Finset.sum_range_succ, Ne.symm hb, FitsEdgeWeight]

theorem heavyEdge_closed : heavyEdge.Closed := by
  intro v a ha
  simp only [heavyEdge] at ha
  split_ifs at ha <;> simp only [List.mem_singleton, List.not_mem_nil] at ha <;> subst ha <;> decide

/-- The one cluster of `heavyEdge` weighs `2 ^ 32`. -/
theorem heavyEdge_clusterWeight : heavyEdge.clusterWeight (fun _ => 0) 0 = 2 ^ 32 := by
  simp [Graph.clusterWeight, heavyEdge, Finset.sum_range_succ]

end Kahip
