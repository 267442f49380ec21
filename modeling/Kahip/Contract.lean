import Kahip.Coarse

/-!
# `contract` and `contract_partitioned` on a matching

Both walk the fine nodes in the order of `permutation`. A node whose
cluster id is the next one to make (`cur_no_vertices`) represents its
cluster: it gets a new coarse node, and the out-edges of it and of its
matched partner are visited, each arc to another cluster either creating a
coarse arc or adding its weight to the one made before; `edge_positions`
records, per target cluster, the slot of that arc, and is cleared again at
the slots of the new node's arcs only.

The walk keeps `WalkInv` over every prefix of the order: the coarse nodes
made so far are the clusters seen so far, each is its quotient node, and
`edge_positions` is clear. Within one coarse node the visits keep
`VisitInv`. From the two, `contractMatching_spec`: on a matching, with
clusters numbered in order of first occurrence, the walk builds the
quotient, within the edge capacity it asked for, and its closing assertions
hold. The pair's weight is a sum of `NodeWeight`s and a coarse arc's weight
a sum of `EdgeWeight`s, so the quotient's weights are the sums as those
types hold them.
-/

namespace Kahip

/-- The labels of a graph level: `getPartitionIndex`, `get_partition_count`
and `getSecondPartitionIndex`. -/
structure Labels where
  part : Nat → Nat
  k : Nat
  second : Nat → Nat

/-- Modelled from the spec: `visit_edge(G, coarser, edge_positions,
coarseNode, e, new_edge_targets)` (its body, in the header, is not part of
the sample), for the arc `x` of fine edge `e`, whose target is already its
cluster. An arc to another cluster makes a new coarse arc the first time,
whose slot `edge_positions` records; later arcs to that cluster add their
weight to it, an addition of `EdgeWeight`s. -/
def visitEdge (coarseNode : Nat) (st : (Nat → Option Nat) × CoarseEdges) (x : Arc) :
    Except Fault ((Nat → Option Nat) × CoarseEdges) :=
  if x.target = coarseNode then .ok st
  else match st.1 x.target with
    | none => do
      let (e, es) ← st.2.newEdge x.target
      pure (Function.update st.1 x.target (some e), es.setEdgeWeight e x.weight)
    | some e => pure (st.1, st.2.setEdgeWeight e ((st.2.slot e).weight + x.weight))

/-- `forall_out_edges(G, e, node) visit_edge(...)`. -/
def visitEdges (coarseNode : Nat) (arcs : List Arc) (st : (Nat → Option Nat) × CoarseEdges) :
    Except Fault ((Nat → Option Nat) × CoarseEdges) :=
  arcs.foldlM (visitEdge coarseNode) st

/-- The loop state of the walk: the builder, `edge_positions`, and
`cur_no_vertices`. -/
structure ContractState where
  b : Builder
  pos : Nat → Option Nat
  cur : Nat

/-- `edge_positions[t] = UNDEFINED_EDGE` for the target of every slot of
`es` in `slots`. -/
def clearPositions (es : CoarseEdges) (slots : List Nat) (pos : Nat → Option Nat) : Nat → Option Nat :=
  slots.foldl (fun pos e => Function.update pos (es.slot e).target none) pos

section Walk

variable (G : Graph) (M c : Nat → Nat) (L : Labels) (partitioned combine : Bool)

/-- The new coarse node's own slots: its weight, its block (in
`contract_partitioned`) and, with `partition_config.combine`, its second
block, all from the representative `node`. -/
def labelNode (b : Builder) (coarseNode node : Nat) : Builder :=
  let b := b.setNodeWeight coarseNode (G.nodeWeight node)
  let b := if partitioned then b.setPartitionIndex coarseNode (L.part node) else b
  if combine then b.setSecondPartitionIndex coarseNode (L.second node) else b

/-- The body of the walk for `node = permutation[n]`; `partitioned` tells
`contract_partitioned` from `contract`. -/
def contractNode (st : ContractState) (node : Nat) : Except Fault ContractState := do
  if c node ≠ st.cur then return st
  let (coarseNode, b) ← st.b.newNode
  let b := labelNode G L partitioned combine b coarseNode node
  let r ← visitEdges coarseNode (G.clusterArcs c node) (st.pos, b.edges)
  let b := { b with edges := r.2 }
  let matched := M node
  let (pos, b) ← if node ≠ matched then do
      let newCoarseWeight := toNodeWeight (G.nodeWeight node + G.nodeWeight matched)
      let b := b.setNodeWeight coarseNode newCoarseWeight
      let r ← visitEdges coarseNode (G.clusterArcs c matched) (r.1, b.edges)
      pure (r.1, { b with edges := r.2 })
    else pure (r.1, b)
  return ⟨b, clearPositions b.edges (b.outEdges coarseNode) pos, st.cur + 1⟩

/-- `forall_nodes(G, n)` over `node = permutation[n]`. -/
def contractWalk (order : List Nat) (st : ContractState) : Except Fault ContractState :=
  order.foldlM (contractNode G M c L partitioned combine) st

/-- The state before the walk: the builder after `start_construction`
(`contract_partitioned` also copies the partition count), `edge_positions`
all `UNDEFINED_EDGE`, and no coarse node yet. -/
def contractStart (n' : Nat) : ContractState :=
  let b := Builder.startConstruction n' G.numberOfEdges
  ⟨if partitioned then b.setPartitionCount L.k else b, fun _ => none, 0⟩

/-- The matching path of `contract` (`partitioned = false`) and of
`contract_partitioned` (`partitioned = true`): the walk, then
`ASSERT_RANGE_EQ(edge_positions, ..., UNDEFINED_EDGE)` and
`ASSERT_EQ(no_of_coarse_vertices, cur_no_vertices)`, then
`finish_construction`. -/
def contractMatching (n' : Nat) (permutation : Nat → Nat) : Except Fault Builder := do
  let st ← contractWalk G M c L partitioned combine ((List.range G.n).map permutation)
    (contractStart G L partitioned n')
  if (List.range n').all (fun a => st.pos a = none) then
    if n' = st.cur then pure st.b.finishConstruction else .error .assertion
  else .error .assertion

end Walk

/-! ## The visits of one coarse node -/

namespace CoarseEdges

variable {es : CoarseEdges} {e e' : Nat} {w : Int}

@[simp] theorem setEdgeWeight_target : ((es.setEdgeWeight e w).slot e').target = (es.slot e').target := by
  by_cases h : e' = e
  · subst h; simp [setEdgeWeight]
  · simp [setEdgeWeight, Function.update_noteq h]

theorem setEdgeWeight_slot_ne (h : e' ≠ e) : (es.setEdgeWeight e w).slot e' = es.slot e' := by
  simp [setEdgeWeight, Function.update_noteq h]

@[simp] theorem setEdgeWeight_weight_self : ((es.setEdgeWeight e w).slot e).weight = toEdgeWeight w := by
  simp [setEdgeWeight]

@[simp] theorem setEdgeWeight_count : (es.setEdgeWeight e w).count = es.count := rfl

@[simp] theorem setEdgeWeight_cap : (es.setEdgeWeight e w).cap = es.cap := rfl

@[simp] theorem push_count {x : Arc} : (es.push x).count = es.count + 1 := rfl

@[simp] theorem push_cap {x : Arc} : (es.push x).cap = es.cap := rfl

@[simp] theorem push_slot_self {x : Arc} : (es.push x).slot es.count = x := by simp [push]

theorem push_slot_lt {x : Arc} (h : e < es.count) : (es.push x).slot e = es.slot e := by
  simp [push, Function.update_noteq (Nat.ne_of_lt h)]

/-- A new slot of weight `0` whose weight is then set. -/
theorem push_setEdgeWeight (t : Nat) :
    (es.push ⟨t, 0, by decide⟩).setEdgeWeight es.count w = es.push (Arc.ofWeight t w) := by
  simp [push, setEdgeWeight]

/-- The slots below `hi` decide the arcs of `[lo, hi)`. -/
theorem range_congr {s t : CoarseEdges} {lo hi : Nat} (h : ∀ e < hi, t.slot e = s.slot e) :
    t.range lo hi = s.range lo hi := by
  refine List.map_congr_left fun e he => h e ?_
  rw [List.mem_range'_1] at he
  omega

end CoarseEdges

/-- What the arcs `L` visited so far for coarse node `a` have left in
`edge_positions` and in the edge array, whose slots from `k` on are the new
node's: each target met, other than `a`, has one slot, recorded in
`edge_positions` and weighing the arcs to it, as an `EdgeWeight`. -/
structure VisitInv (a k : Nat) (es0 : CoarseEdges) (L : List Arc)
    (st : (Nat → Option Nat) × CoarseEdges) : Prop where
  frame : ∀ e < k, st.2.slot e = es0.slot e
  cap : st.2.cap = es0.cap
  start : k ≤ st.2.count
  count : st.2.count ≤ k + L.length
  pos : ∀ t e, st.1 t = some e → k ≤ e ∧ e < st.2.count ∧ (st.2.slot e).target = t
  slot : ∀ e, k ≤ e → e < st.2.count → st.1 (st.2.slot e).target = some e
  weight : ∀ e, k ≤ e → e < st.2.count →
    (st.2.slot e).target ≠ a ∧ (st.2.slot e).weight = toEdgeWeight (sumTo L (st.2.slot e).target)
  seen : ∀ t, st.1 t ≠ none ↔ t ≠ a ∧ t ∈ L.map (·.target)

variable {a k : Nat} {es0 : CoarseEdges} {L : List Arc} {st : (Nat → Option Nat) × CoarseEdges}

theorem visitInv_start (a : Nat) (es0 : CoarseEdges) : VisitInv a es0.count es0 [] (fun _ => none, es0) where
  frame := fun _ _ => rfl
  cap := rfl
  start := le_rfl
  count := by simp
  pos := by simp
  slot := fun e h1 h2 => absurd h2 (by simp only; omega)
  weight := fun e h1 h2 => absurd h2 (by simp only; omega)
  seen := by simp

/-- An arc to the coarse node itself changes nothing. -/
theorem VisitInv.self (hi : VisitInv a k es0 L st) {x : Arc} (hx : x.target = a) :
    VisitInv a k es0 (L ++ [x]) st where
  frame := hi.frame
  cap := hi.cap
  start := hi.start
  count := by have := hi.count; simp; omega
  pos := hi.pos
  slot := hi.slot
  weight := fun e h1 h2 => by
    obtain ⟨hne, hw⟩ := hi.weight e h1 h2
    refine ⟨hne, ?_⟩
    rw [sumTo_append, sumTo_singleton, if_neg (by rw [hx]; exact Ne.symm hne), hw, add_zero]
  seen := fun t => by
    rw [hi.seen t]
    simp only [List.map_append, List.mem_append, List.map_cons, List.map_nil, List.mem_singleton]
    constructor
    · rintro ⟨h1, h2⟩; exact ⟨h1, Or.inl h2⟩
    · rintro ⟨h1, h2 | h2⟩
      · exact ⟨h1, h2⟩
      · exact absurd (h2.trans hx) h1

/-- An arc to a cluster met before adds its weight to that cluster's
slot. -/
theorem VisitInv.again (hi : VisitInv a k es0 L st) {x : Arc} {e : Nat} (he : st.1 x.target = some e) :
    VisitInv a k es0 (L ++ [x]) (st.1, st.2.setEdgeWeight e ((st.2.slot e).weight + x.weight)) := by
  obtain ⟨hke, hec, het⟩ := hi.pos _ _ he
  have hseen := (hi.seen x.target).1 (by simp [he])
  refine ⟨fun e' he' => ?_, hi.cap, hi.start, by have := hi.count; simp; omega, ?_, ?_, ?_, ?_⟩
  · rw [CoarseEdges.setEdgeWeight_slot_ne (by omega)]; exact hi.frame e' he'
  · intro t e' h; simpa using hi.pos t e' h
  · intro e' h1 h2; simpa using hi.slot e' h1 h2
  · intro e' h1 h2
    simp only [CoarseEdges.setEdgeWeight_target, sumTo_append, sumTo_singleton]
    obtain ⟨hne, hw⟩ := hi.weight e' h1 h2
    refine ⟨hne, ?_⟩
    by_cases hee : e' = e
    · subst hee
      rw [CoarseEdges.setEdgeWeight_weight_self, hw, het, if_pos rfl, toEdgeWeight_add_left]
    · have ht : x.target ≠ (st.2.slot e').target := fun h =>
        hee (Option.some.inj ((hi.slot e' h1 h2).symm.trans (h ▸ he)))
      rw [CoarseEdges.setEdgeWeight_slot_ne hee, hw, if_neg ht, add_zero]
  · intro t
    rw [hi.seen t]
    simp only [List.map_append, List.mem_append, List.map_cons, List.map_nil, List.mem_singleton]
    constructor
    · rintro ⟨h1, h2⟩; exact ⟨h1, Or.inl h2⟩
    · rintro ⟨h1, h2 | rfl⟩
      · exact ⟨h1, h2⟩
      · exact hseen

/-- An arc to a cluster not met yet makes a new slot. -/
theorem VisitInv.fresh (hi : VisitInv a k es0 L st) {x : Arc} (hx : x.target ≠ a)
    (hnone : st.1 x.target = none) :
    VisitInv a k es0 (L ++ [x]) (Function.update st.1 x.target (some st.2.count), st.2.push x) := by
  have hk := hi.start
  have hnotin : x.target ∉ L.map (·.target) := fun h => (hi.seen x.target).2 ⟨hx, h⟩ hnone
  -- an old slot's target is not the new one
  have hold : ∀ e, k ≤ e → e < st.2.count → (st.2.slot e).target ≠ x.target := fun e h1 h2 h =>
    by simp [← h, hi.slot e h1 h2] at hnone
  refine ⟨fun e he => ?_, hi.cap, by simp; omega, by have := hi.count; simp; omega, ?_, ?_, ?_, ?_⟩ <;>
    dsimp only
  · rw [CoarseEdges.push_slot_lt (by omega)]; exact hi.frame e he
  · intro t e h
    by_cases ht : t = x.target
    · subst ht
      obtain rfl : st.2.count = e := by simpa using h
      simp; omega
    · rw [Function.update_noteq ht] at h
      obtain ⟨h1, h2, h3⟩ := hi.pos t e h
      exact ⟨h1, by simp; omega, by rw [CoarseEdges.push_slot_lt h2, h3]⟩
  · intro e h1 h2
    rw [CoarseEdges.push_count] at h2
    rcases Nat.lt_succ_iff_lt_or_eq.1 h2 with h2 | rfl
    · rw [CoarseEdges.push_slot_lt h2, Function.update_noteq (hold e h1 h2)]
      exact hi.slot e h1 h2
    · rw [CoarseEdges.push_slot_self, Function.update_same]
  · intro e h1 h2
    rw [CoarseEdges.push_count] at h2
    simp only [sumTo_append, sumTo_singleton]
    rcases Nat.lt_succ_iff_lt_or_eq.1 h2 with h2 | rfl
    · rw [CoarseEdges.push_slot_lt h2, if_neg (Ne.symm (hold e h1 h2)), add_zero]
      exact hi.weight e h1 h2
    · simp [hx, sumTo_eq_zero hnotin, toEdgeWeight_of_fits x.weight_fits]
  · intro t
    by_cases ht : t = x.target
    · subst ht; simp [hx]
    · rw [Function.update_noteq ht, hi.seen t]
      simp [ht]

/-- One visit keeps the invariant, and cannot fail while the arcs visited
stay within the capacity. -/
theorem VisitInv.visit (hi : VisitInv a k es0 L st) (x : Arc) (hcap : k + (L.length + 1) ≤ es0.cap) :
    ∃ st', visitEdge a st x = .ok st' ∧ VisitInv a k es0 (L ++ [x]) st' := by
  unfold visitEdge
  by_cases hx : x.target = a
  · exact ⟨st, by simp [hx], hi.self hx⟩
  rw [if_neg hx]
  cases hp : st.1 x.target with
  | some e => exact ⟨_, rfl, hi.again hp⟩
  | none =>
    have hlt : st.2.count < st.2.cap := by have := hi.count; rw [hi.cap]; omega
    refine ⟨_, ?_, hi.fresh hx hp⟩
    simp [CoarseEdges.newEdge, hlt, bind, Except.bind, pure, Except.pure, CoarseEdges.push_setEdgeWeight]

/-- The visits of a list of arcs keep the invariant and return. -/
theorem VisitInv.visitEdges (hi : VisitInv a k es0 L st) (R : List Arc)
    (hcap : k + (L ++ R).length ≤ es0.cap) :
    ∃ st', visitEdges a R st = .ok st' ∧ VisitInv a k es0 (L ++ R) st' := by
  induction R generalizing L st with
  | nil => exact ⟨st, rfl, by simpa using hi⟩
  | cons x R ih =>
    obtain ⟨st1, h1, hi1⟩ := hi.visit x (by simp at hcap; omega)
    obtain ⟨st2, h2, hi2⟩ := ih hi1 (by simpa using hcap)
    refine ⟨st2, ?_, by simpa using hi2⟩
    simp only [Kahip.visitEdges, List.foldlM_cons, h1]
    exact h2

/-- Clearing the positions at the targets of some slots clears every
position that was clear or is the target of one of them. -/
theorem clearPositions_none (es : CoarseEdges) (slots : List Nat) {pos : Nat → Option Nat} {t : Nat}
    (h : pos t = none ∨ ∃ e ∈ slots, (es.slot e).target = t) : clearPositions es slots pos t = none := by
  induction slots generalizing pos with
  | nil => simpa using h
  | cons e slots ih =>
    show clearPositions es slots (Function.update pos (es.slot e).target none) t = none
    apply ih
    by_cases he : (es.slot e).target = t
    · left; rw [← he, Function.update_same]
    · rcases h with h | ⟨e', he', ht⟩
      · left; rwa [Function.update_noteq (Ne.symm he)]
      · rcases List.mem_cons.1 he' with rfl | he'
        · exact absurd ht he
        · exact Or.inr ⟨e', he', ht⟩

/-- At the end of a coarse node's visits, its slots are the quotient arcs of
the arcs visited. -/
theorem VisitInv.range (hi : VisitInv a k es0 L st) :
    (((st.2.range k st.2.count).map (·.target)).Nodup) ∧
      (∀ x ∈ st.2.range k st.2.count, x.target ≠ a ∧ x.weight = toEdgeWeight (sumTo L x.target)) ∧
      ∀ t, t ≠ a → (t ∈ (st.2.range k st.2.count).map (·.target) ↔ t ∈ L.map (·.target)) := by
  have hmem : ∀ e, e ∈ List.range' k (st.2.count - k) ↔ k ≤ e ∧ e < st.2.count := fun e => by
    rw [List.mem_range'_1]; have := hi.start; omega
  refine ⟨?_, ?_, fun t ht => ?_⟩
  · rw [CoarseEdges.range, List.map_map]
    refine (List.nodup_range' _ _).map_on fun e1 h1 e2 h2 h => ?_
    rw [hmem] at h1 h2
    have := (hi.slot e1 h1.1 h1.2).symm.trans ((congrArg st.1 h).trans (hi.slot e2 h2.1 h2.2))
    exact Option.some.inj this
  · intro x hx
    obtain ⟨e, he, rfl⟩ := List.mem_map.1 hx
    rw [hmem] at he
    exact hi.weight e he.1 he.2
  · constructor
    · intro h
      obtain ⟨x, hx, rfl⟩ := List.mem_map.1 h
      obtain ⟨e, he, rfl⟩ := List.mem_map.1 hx
      rw [hmem] at he
      exact ((hi.seen _).1 (by simp [hi.slot e he.1 he.2])).2
    · intro h
      obtain ⟨e, he⟩ := Option.ne_none_iff_exists'.1 ((hi.seen t).2 ⟨ht, h⟩)
      obtain ⟨h1, h2, h3⟩ := hi.pos t e he
      exact List.mem_map.2 ⟨_, List.mem_map.2 ⟨e, (hmem e).2 ⟨h1, h2⟩, rfl⟩, h3⟩

theorem VisitInv.clear (hi : VisitInv a k es0 L st) (t : Nat) :
    clearPositions st.2 (List.range' k (st.2.count - k)) st.1 t = none := by
  apply clearPositions_none
  cases h : st.1 t with
  | none => exact Or.inl rfl
  | some e =>
    obtain ⟨h1, h2, h3⟩ := hi.pos t e h
    exact Or.inr ⟨e, List.mem_range'_1.2 ⟨h1, by omega⟩, h3⟩

/-! ## One coarse node -/

section Node

variable {G : Graph} {M c : Nat → Nat} {L : Labels} {partitioned combine : Bool}

@[simp] theorem labelNode_edges (b : Builder) (v node : Nat) :
    (labelNode G L partitioned combine b v node).edges = b.edges := by
  unfold labelNode; split <;> split <;> rfl

/-- The labels of a new node: its weight, its block in `contract_partitioned`;
the rest of the node array stays. -/
theorem labelNode_nodes (b : Builder) (v node : Nat) :
    let ns := (labelNode G L partitioned combine b v node).nodes
    ns.count = b.nodes.count ∧ ns.cap = b.nodes.cap ∧ ns.firstEdge = b.nodes.firstEdge ∧
      ns.weight = Function.update b.nodes.weight v (G.nodeWeight node) ∧
      ns.part = (if partitioned then Function.update b.nodes.part v (L.part node) else b.nodes.part) ∧
      ns.partitionCount = b.nodes.partitionCount := by
  have hw := toNodeWeight_of_lt (G.nodeWeight_lt node)
  unfold labelNode
  split <;> split <;>
    simp [Builder.setNodeWeight, Builder.setPartitionIndex, Builder.setSecondPartitionIndex, hw]

variable (G M c L partitioned) in
/-- What the walk's body does for a node that starts a new cluster: one
more coarse node, weighing the pair as a `NodeWeight`, with the block of the
representative, whose slots are what the visits of the pair's arcs left;
`edge_positions` clear again. -/
structure NodeMade (st st' : ContractState) (x : Nat) : Prop where
  cur : st'.cur = st.cur + 1
  pos : ∀ t, st'.pos t = none
  count : st'.b.nodes.count = st.b.nodes.count + 1
  cap : st'.b.nodes.cap = st.b.nodes.cap
  firstEdge : st'.b.nodes.firstEdge = Function.update st.b.nodes.firstEdge st.b.nodes.count st.b.edges.count
  weight : st'.b.nodes.weight = Function.update st.b.nodes.weight st.b.nodes.count
    (toNodeWeight (G.nodeWeight x + if x ≠ M x then G.nodeWeight (M x) else 0))
  part : st'.b.nodes.part =
    if partitioned then Function.update st.b.nodes.part st.b.nodes.count (L.part x) else st.b.nodes.part
  partitionCount : st'.b.nodes.partitionCount = st.b.nodes.partitionCount
  visits : ∃ pos, VisitInv st.b.nodes.count st.b.edges.count st.b.edges (G.pairArcs c M x) (pos, st'.b.edges)

theorem contractNode_seen {st : ContractState} {x : Nat} (hx : c x ≠ st.cur) :
    contractNode G M c L partitioned combine st x = .ok st := by
  simp [contractNode, hx, pure, Except.pure]

/-- The walk's body on the representative of the next cluster returns, as
long as the node and edge arrays have room. -/
theorem contractNode_new {st : ContractState} {x : Nat} (hx : c x = st.cur) (hpos : ∀ t, st.pos t = none)
    (hcnt : st.b.nodes.count < st.b.nodes.cap)
    (hcap : st.b.edges.count + (G.pairArcs c M x).length ≤ st.b.edges.cap) :
    ∃ st', contractNode G M c L partitioned combine st x = .ok st' ∧
      NodeMade G M c L partitioned st st' x := by
  have hn : st.b.newNode = .ok (st.b.nodes.count, { st.b with nodes := st.b.nodes.push st.b.edges.count }) := by
    simp [Builder.newNode, hcnt]
  have h0 : VisitInv st.b.nodes.count st.b.edges.count st.b.edges [] (st.pos, st.b.edges) := by
    rw [show st.pos = fun _ => none from funext hpos]; exact visitInv_start _ _
  obtain ⟨r1, h1, hi1⟩ := h0.visitEdges (G.clusterArcs c x) (by simp [Graph.pairArcs] at hcap ⊢; omega)
  obtain ⟨lc, lcap, lfe, lw, lp, lpc⟩ := @labelNode_nodes G L partitioned combine
    { st.b with nodes := st.b.nodes.push st.b.edges.count } st.b.nodes.count x
  have hw := toNodeWeight_of_lt (G.nodeWeight_lt x)
  simp only [contractNode, hx, ne_eq, not_true_eq_false, if_false, hn, bind, Except.bind, pure, Except.pure,
    labelNode_edges, Builder.setNodeWeight, List.nil_append] at h1 hi1 ⊢
  rw [h1]
  simp only
  split
  · -- a matched pair: the partner's arcs too
    rename_i hxm
    obtain ⟨r2, h2, hi2⟩ := hi1.visitEdges (G.clusterArcs c (M x)) (by simpa [Graph.pairArcs, hxm] using hcap)
    rw [h2]
    refine ⟨_, rfl, rfl, fun t => ?_, ?_, ?_, ?_, ?_, ?_, ?_, ⟨r2.1, by simpa [Graph.pairArcs, hxm] using hi2⟩⟩
    · simp only [Builder.outEdges, lfe]
      simpa [CoarseNodes.push] using hi2.clear t
    all_goals simp only [lc, lcap, lfe, lw, lp, lpc]; simp [CoarseNodes.push, hxm]
  · -- an unmatched node
    rename_i hxm
    refine ⟨_, rfl, rfl, fun t => ?_, ?_, ?_, ?_, ?_, ?_, ?_, ⟨r1.1, by simpa [Graph.pairArcs, hxm] using hi1⟩⟩
    · simp only [Builder.outEdges, lfe]
      simpa [CoarseNodes.push] using hi1.clear t
    all_goals simp only [lc, lcap, lfe, lw, lp, lpc]; simp [CoarseNodes.push, hxm, hw]

end Node

/-! ## The walk -/

section WalkProof

open Finset

variable {G : Graph} {M c : Nat → Nat} {L : Labels} {partitioned combine : Bool} {n' : Nat}

/-- The finished view of a builder: the last node's range closed at the
edge count. -/
theorem finishConstruction_adj (b : Builder) (a : Nat) :
    b.finishConstruction.toGraph.adj a =
      b.edges.range (Function.update b.nodes.firstEdge b.nodes.count b.edges.count a)
        (Function.update b.nodes.firstEdge b.nodes.count b.edges.count (a + 1)) := rfl

variable (G c L partitioned n') in
/-- What the walk keeps over the prefix `Q` of the order: the coarse nodes
made are the clusters seen, numbered `0 .. cur - 1`; each is its quotient
node, its range closed at the edge count; the edges made stay within the
arcs of the clusters seen; and `edge_positions` is clear. -/
structure WalkInv (Q : List Nat) (st : ContractState) : Prop where
  seen : ∀ a, a < st.cur ↔ ∃ v ∈ Q, c v = a
  pos : ∀ t, st.pos t = none
  count : st.b.nodes.count = st.cur
  nodeCap : st.b.nodes.cap = n'
  edgeCap : st.b.edges.cap = G.numberOfEdges
  edges : st.b.edges.count ≤ ∑ v in range G.n, if c v < st.cur then (G.adj v).length else 0
  first : ∀ a < st.cur, st.b.nodes.firstEdge a ≤ st.b.edges.count
  weight : ∀ a < st.cur, st.b.nodes.weight a = toNodeWeight (G.clusterWeight c a)
  arcs : ∀ a < st.cur, G.QuotientArcs c (G.Joined c) a (st.b.finishConstruction.toGraph.adj a)
  part : partitioned → ∀ a < st.cur, ∃ r < G.n, c r = a ∧ st.b.nodes.part a = L.part r
  partitionCount : partitioned → st.b.nodes.partitionCount = L.k

theorem walkInv_start : WalkInv G c L partitioned n' [] (contractStart G L partitioned n') := by
  unfold contractStart
  cases partitioned <;>
    exact ⟨by simp, fun _ => rfl, rfl, rfl, rfl, by simp [Builder.startConstruction, Builder.setPartitionCount],
      by simp, by simp, by simp, by simp, by simp [Builder.setPartitionCount]⟩

/-- The slots of the pair of a new cluster, as that cluster's quotient
arcs. -/
theorem QuotientArcs.of_visits (hm : G.MatchingClusters c M) {x : Nat} (hx : x < G.n) {k : Nat}
    {es0 : CoarseEdges} {st : (Nat → Option Nat) × CoarseEdges}
    (hv : VisitInv (c x) k es0 (G.pairArcs c M x) st) :
    G.QuotientArcs c (G.Joined c) (c x) (st.2.range k st.2.count) := by
  obtain ⟨hnd, hwt, hjn⟩ := hv.range
  have hM := hm.lt x hx
  have hxM : c (M x) = c x := (hm.pair _ hM x hx).2 (Or.inr rfl)
  refine ⟨hnd, fun y hy => ?_, fun t ht => (hjn t ht).trans ?_⟩
  · -- the fine arcs out of the cluster are those of `x` and its partner
    refine ⟨(hwt y hy).1, ?_⟩
    rw [(hwt y hy).2, Graph.quotientWeight, Graph.sum_cluster hm hx, Graph.pairArcs, sumTo_append]
    split <;> simp
  · -- an arc out of the cluster leaves `x` or its partner
    simp only [Graph.pairArcs, List.map_append, List.mem_append]
    constructor
    · rintro (hb | hb)
      · exact ⟨x, hx, rfl, hb⟩
      · split at hb
        · exact ⟨M x, hM, hxM, hb⟩
        · simp at hb
    · rintro ⟨u, hu, huv, hb⟩
      rcases (hm.pair u hu x hx).1 huv with rfl | rfl
      · exact Or.inl hb
      · by_cases hp : x = M x
        · rw [← hp] at hb; exact Or.inl hb
        · rw [if_pos hp]; exact Or.inr hb

/-- A new node leaves the finished view of the nodes made before alone. -/
theorem update_update_firstEdge (fe : Nat → Nat) {k p q i : Nat} (hi : i ≤ k) :
    Function.update (Function.update fe k p) (k + 1) q i = Function.update fe k p i :=
  Function.update_noteq (by omega) _ _

/-- The walk's body keeps the invariant, given that every cluster numbered
below the node's was seen. -/
theorem WalkInv.step {Q : List Nat} {st : ContractState} (hw : WalkInv G c L partitioned n' Q st)
    (hm : G.MatchingClusters c M) {x : Nat} (hx : x < G.n) (hcx : c x < n')
    (hnum : ∀ a < c x, ∃ y ∈ Q, c y = a) :
    ∃ st', contractNode G M c L partitioned combine st x = .ok st' ∧
      WalkInv G c L partitioned n' (Q ++ [x]) st' := by
  by_cases hcur : c x = st.cur
  swap
  · -- a cluster seen before
    have hlt : c x < st.cur := by
      rcases Nat.lt_or_ge (c x) st.cur with h | h
      · exact h
      · obtain ⟨y, hy, hyc⟩ := hnum st.cur (by omega)
        exact absurd ((hw.seen _).2 ⟨y, hy, hyc⟩) (lt_irrefl _)
    refine ⟨st, contractNode_seen hcur, { hw with seen := fun a => ?_ }⟩
    rw [hw.seen a]
    simp only [List.mem_append, List.mem_singleton]
    constructor
    · rintro ⟨v, hv, rfl⟩; exact ⟨v, Or.inl hv, rfl⟩
    · rintro ⟨v, hv | rfl, rfl⟩
      · exact ⟨v, hv, rfl⟩
      · exact (hw.seen _).1 hlt
  -- the representative of the next cluster
  have hsplit : ∀ v, (if c v < st.cur + 1 then (G.adj v).length else 0) =
      (if c v < st.cur then (G.adj v).length else 0) + if c v = st.cur then (G.adj v).length else 0 :=
    fun v => by split_ifs <;> omega
  have hpair : (G.pairArcs c M x).length = ∑ v in range G.n, if c v = st.cur then (G.adj v).length else 0 := by
    rw [← hcur, Graph.sum_cluster hm hx]
    simp only [Graph.pairArcs, List.length_append, Graph.length_clusterArcs]
    split <;> simp
  have hroom : ∑ v in range G.n, (if c v < st.cur + 1 then (G.adj v).length else 0) ≤ G.numberOfEdges :=
    sum_le_sum fun v _ => by split <;> omega
  simp only [hsplit, sum_add_distrib] at hroom
  obtain ⟨st', h, hmade⟩ := @contractNode_new _ _ _ L partitioned combine _ _ hcur hw.pos
    (by rw [hw.count, hw.nodeCap, ← hcur]; exact hcx)
    (by rw [hw.edgeCap, hpair]; have := hw.edges; omega)
  obtain ⟨pos, hv⟩ := hmade.visits
  have hcnt := hw.count
  have hk : st.b.edges.count ≤ st'.b.edges.count := hv.start
  have hvc : st'.b.edges.count ≤ st.b.edges.count + (G.pairArcs c M x).length := hv.count
  have hfe : st'.b.nodes.firstEdge = Function.update st.b.nodes.firstEdge st.cur st.b.edges.count := by
    rw [hmade.firstEdge, hcnt]
  have hc' : st'.b.nodes.count = st.cur + 1 := by rw [hmade.count, hcnt]
  refine ⟨st', h, ⟨fun a => ?_, hmade.pos, by rw [hc', hmade.cur], by rw [hmade.cap, hw.nodeCap],
    hv.cap.trans hw.edgeCap, ?_, fun a ha => ?_, fun a ha => ?_, fun a ha => ?_, fun hp a ha => ?_, fun hp => ?_⟩⟩
  · -- seen
    rw [hmade.cur]
    simp only [List.mem_append, List.mem_singleton]
    constructor
    · intro ha
      rcases Nat.lt_succ_iff_lt_or_eq.1 ha with ha | rfl
      · obtain ⟨v, hv, hva⟩ := (hw.seen a).1 ha; exact ⟨v, Or.inl hv, hva⟩
      · exact ⟨x, Or.inr rfl, hcur⟩
    · rintro ⟨v, hv | rfl, rfl⟩
      · exact Nat.lt_succ_of_lt ((hw.seen _).2 ⟨v, hv, rfl⟩)
      · omega
  · -- edges
    rw [hmade.cur]
    simp only [hsplit, sum_add_distrib]
    have := hw.edges; omega
  · -- first
    rw [hfe]
    rw [hmade.cur] at ha
    by_cases hac : a = st.cur
    · subst hac; rw [Function.update_same]; exact hk
    · rw [Function.update_noteq hac]; have := hw.first a (by omega); omega
  · -- weight
    rw [hmade.cur] at ha
    rw [hmade.weight, hcnt]
    by_cases hac : a = st.cur
    · subst hac; rw [Function.update_same, ← hcur, Graph.clusterWeight, Graph.sum_cluster hm hx]
    · rw [Function.update_noteq hac]; exact hw.weight a (by omega)
  · -- arcs
    rw [hmade.cur] at ha
    rw [finishConstruction_adj, hc', hfe]
    rcases Nat.lt_succ_iff_lt_or_eq.1 ha with ha | rfl
    · -- a node made before: its range lies below the new slots
      have hup := fun i (hi : i ≤ st.cur) => update_update_firstEdge st.b.nodes.firstEdge
        (p := st.b.edges.count) (q := st'.b.edges.count) hi
      rw [hup a (by omega), hup (a + 1) ha, CoarseEdges.range_congr (s := st.b.edges) fun e he => hv.frame e ?_]
      · have := hw.arcs a ha; rwa [finishConstruction_adj, hcnt] at this
      · have : Function.update st.b.nodes.firstEdge st.cur st.b.edges.count (a + 1) ≤ st.b.edges.count := by
          by_cases h1 : a + 1 = st.cur
          · rw [h1]; simp
          · rw [Function.update_noteq h1]; exact hw.first (a + 1) (by omega)
        omega
    · -- the new node
      rw [Function.update_noteq (by omega), Function.update_same, Function.update_same]
      have hv' : VisitInv (c x) st.b.edges.count st.b.edges (G.pairArcs c M x) (pos, st'.b.edges) := by
        rw [hcur, ← hcnt]; exact hv
      have := QuotientArcs.of_visits hm hx hv'
      rwa [hcur] at this
  · -- part
    rw [hmade.cur] at ha
    rw [hmade.part, if_pos hp, hcnt]
    by_cases hac : a = st.cur
    · subst hac; exact ⟨x, hx, hcur, by rw [Function.update_same]⟩
    · rw [Function.update_noteq hac]; exact hw.part hp a (by omega)
  · -- partition count
    rw [hmade.partitionCount]; exact hw.partitionCount hp

variable (G M c L partitioned combine) in
/-- The walk over the rest `R` of an order whose nodes are nodes of `G` and
whose clusters are numbered in order of first occurrence keeps the
invariant. -/
theorem WalkInv.run (hm : G.MatchingClusters c M) (hc : ∀ v < G.n, c v < n') {order : List Nat}
    (horder : ∀ v ∈ order, v < G.n)
    (hnum : ∀ pre x suf, order = pre ++ x :: suf → ∀ a < c x, ∃ y ∈ pre, c y = a)
    (R : List Nat) : ∀ (Q S : List Nat) (st : ContractState), order = Q ++ R ++ S →
      WalkInv G c L partitioned n' Q st →
      ∃ st', contractWalk G M c L partitioned combine R st = .ok st' ∧ WalkInv G c L partitioned n' (Q ++ R) st' := by
  induction R with
  | nil => exact fun Q _ st _ hw => ⟨st, rfl, by simpa using hw⟩
  | cons x R ih =>
    intro Q S st ho hw
    have hxo : x ∈ order := by rw [ho]; simp
    obtain ⟨st1, h1, hw1⟩ := @WalkInv.step _ _ _ _ _ combine _ _ _ hw hm _ (horder x hxo) (hc x (horder x hxo))
      (hnum Q x (R ++ S) (by rw [ho]; simp))
    obtain ⟨st2, h2, hw2⟩ := ih (Q ++ [x]) S st1 (by rw [ho]; simp) hw1
    refine ⟨st2, ?_, by simpa using hw2⟩
    simp only [contractWalk, List.foldlM_cons, h1, bind, Except.bind]
    exact h2

end WalkProof

/-- The matching path of `contract` and `contract_partitioned`, on a
matching whose clusters are numbered in order of first occurrence along the
permutation: it returns, its assertions holding; it builds the quotient,
with no more arcs than `number_of_edges()`, the capacity it asked for; in
`contract_partitioned` every coarse node carries the block of a fine node
of its cluster; and after every coarse node `edge_positions` is clear. -/
theorem contractMatching_spec {G : Graph} {M c : Nat → Nat} (L : Labels) (partitioned combine : Bool)
    {n' : Nat} {permutation : Nat → Nat} (hm : G.MatchingClusters c M) (hc : ∀ v < G.n, c v < n')
    (honto : ∀ a < n', ∃ v < G.n, c v = a)
    (hperm : ((List.range G.n).map permutation).Perm (List.range G.n))
    (hnum : ∀ pre x suf, (List.range G.n).map permutation = pre ++ x :: suf → ∀ a < c x, ∃ y ∈ pre, c y = a) :
    ∃ b, contractMatching G M c L partitioned combine n' permutation = .ok b ∧
      G.IsQuotient c (G.Joined c) n' b.toGraph ∧ b.edges.count ≤ G.numberOfEdges ∧
      (partitioned → (∀ a < n', ∃ r < G.n, c r = a ∧ b.nodes.part a = L.part r) ∧ b.nodes.partitionCount = L.k) ∧
      ∀ pre suf, (List.range G.n).map permutation = pre ++ suf → ∃ st,
        contractWalk G M c L partitioned combine pre (contractStart G L partitioned n') = .ok st ∧
          ∀ t, st.pos t = none := by
  have horder : ∀ v ∈ (List.range G.n).map permutation, v < G.n := fun v hv =>
    List.mem_range.1 (hperm.subset hv)
  have hrun := WalkInv.run G M c L partitioned combine hm hc horder hnum
  obtain ⟨st, hst, hw⟩ := hrun ((List.range G.n).map permutation) [] [] _ (by simp) walkInv_start
  simp only [List.nil_append] at hw
  -- every cluster is seen
  have hseen : ∀ a, a < st.cur ↔ a < n' := fun a => by
    rw [hw.seen a]
    constructor
    · rintro ⟨v, hv, rfl⟩; exact hc v (horder v hv)
    · intro ha
      obtain ⟨v, hv, rfl⟩ := honto a ha
      exact ⟨v, hperm.mem_iff.2 (List.mem_range.2 hv), rfl⟩
  have hcur : st.cur = n' := le_antisymm (Nat.le_of_not_lt fun h => lt_irrefl _ ((hseen n').1 h))
    (Nat.le_of_not_lt fun h => lt_irrefl _ ((hseen st.cur).2 h))
  have hall : ((List.range n').all fun a => st.pos a = none) = true :=
    List.all_eq_true.2 fun a _ => by simp [hw.pos a]
  refine ⟨st.b.finishConstruction, ?_, ⟨?_, ?_, ?_⟩, ?_, fun hp => ⟨fun a ha => ?_, ?_⟩, fun pre suf ho => ?_⟩
  · simp only [contractMatching, hst, bind, Except.bind, hall, if_true, hcur, pure, Except.pure]
  · show st.b.nodes.count = n'; rw [hw.count, hcur]
  · intro a ha
    show st.b.nodes.weight a = _
    exact hw.weight a (hcur ▸ ha)
  · exact fun a ha => hw.arcs a (hcur ▸ ha)
  · show st.b.edges.count ≤ _
    refine hw.edges.trans (Finset.sum_le_sum fun v hv => ?_)
    rw [if_pos (hcur ▸ hc v (Finset.mem_range.1 hv))]
  · exact hw.part hp a (hcur ▸ ha)
  · exact hw.partitionCount hp
  · obtain ⟨st', h', hw'⟩ := hrun pre [] suf _ (by simpa using ho) walkInv_start
    exact ⟨st', h', hw'.pos⟩

end Kahip
