import Mathlib.Algebra.BigOperators.Group.Finset
import Mathlib.Tactic.Ring

/-!
# Graph levels, block labels and the measures the spec states its laws in

`graph_access` as the refinement and contraction code read it: a node
count, node weights, and for every node its out-edges in CSR order
(`forall_out_edges`), each with a target and a weight. An undirected edge
is stored once from each end.

Block labels (`getPartitionIndex`) are kept apart from the topology, as a
function from nodes to block ids: the commit phase writes them, and every
exploring thread reads them through a local view of its own.

The measures are those of `quality_metrics` and of the boundary's block
counters: the edge cut (every arc whose ends lie in different blocks, so
each cut edge is seen from both ends, halved), and the size and weight of
each block.

The header that fixes the weight types is not part of the sample; the model
takes the widths of the default build: `NodeWeight` an `unsigned int` and
`EdgeWeight` an `int`, both of 32 bits. A graph's weights fit them
(`Graph.nodeWeight_lt`, `Arc.weight_fits`); a value stored into one of them
is converted (`toNodeWeight`, `toEdgeWeight`). The measures themselves are
exact sums.
-/

namespace Kahip

open Finset

/-! ## The widths of the weights -/

/-- A value converted to `NodeWeight`, an `unsigned int` of 32 bits. -/
def toNodeWeight (w : Nat) : Nat := w % 2 ^ 32

/-- `EdgeWeight`, an `int` of 32 bits, holds `w`. -/
def FitsEdgeWeight (w : Int) : Prop := -2 ^ 31 ≤ w ∧ w < 2 ^ 31

instance (w : Int) : Decidable (FitsEdgeWeight w) := inferInstanceAs (Decidable (_ ∧ _))

/-- A value converted to `EdgeWeight`: the `int` of 32 bits with the same low
32 bits. A signed addition that overflows, undefined in C++, is taken to wrap
the same way, as the hardware does. -/
def toEdgeWeight (w : Int) : Int := w.bmod (2 ^ 32)

theorem toNodeWeight_lt (w : Nat) : toNodeWeight w < 2 ^ 32 := Nat.mod_lt _ (by norm_num)

theorem toNodeWeight_of_lt {w : Nat} (h : w < 2 ^ 32) : toNodeWeight w = w := Nat.mod_eq_of_lt h

@[simp] theorem toNodeWeight_toNodeWeight (w : Nat) : toNodeWeight (toNodeWeight w) = toNodeWeight w :=
  Nat.mod_mod _ _

/-- Adding to a converted value converts the sum. -/
theorem toNodeWeight_add_left (a b : Nat) : toNodeWeight (toNodeWeight a + b) = toNodeWeight (a + b) := by
  unfold toNodeWeight; omega

/-- Two sums that differ by values equal as `NodeWeight`s are equal as
`NodeWeight`s. -/
theorem toNodeWeight_cancel {a b c d : Nat} (h : a + b = c + d) (hbd : toNodeWeight b = toNodeWeight d) :
    toNodeWeight a = toNodeWeight c := by
  unfold toNodeWeight at *; omega

theorem toEdgeWeight_fits (w : Int) : FitsEdgeWeight (toEdgeWeight w) := by
  unfold FitsEdgeWeight toEdgeWeight
  rw [Int.bmod_def]
  split <;> omega

theorem toEdgeWeight_of_fits {w : Int} (h : FitsEdgeWeight w) : toEdgeWeight w = w := by
  unfold FitsEdgeWeight at h
  unfold toEdgeWeight
  rw [Int.bmod_def]
  split <;> omega

theorem toEdgeWeight_add_left (a b : Int) : toEdgeWeight (toEdgeWeight a + b) = toEdgeWeight (a + b) :=
  Int.bmod_add_bmod_congr

/-- A node weight array keeps its width when one slot gets a converted
value. -/
theorem update_toNodeWeight_lt {f : Nat → Nat} (hf : ∀ v, f v < 2 ^ 32) (v w : Nat) :
    ∀ u, Function.update f v (toNodeWeight w) u < 2 ^ 32 := fun u => by
  rw [Function.update_apply]
  split
  · exact toNodeWeight_lt w
  · exact hf u

/-! ## Graphs -/

/-- One CSR edge slot: `getEdgeTarget` and `getEdgeWeight`, an
`EdgeWeight`. -/
structure Arc where
  target : Nat
  weight : Int
  weight_fits : FitsEdgeWeight weight
deriving Repr, DecidableEq

/-- An arc to `t` whose weight is `w` converted to `EdgeWeight`. -/
def Arc.ofWeight (t : Nat) (w : Int) : Arc := ⟨t, toEdgeWeight w, toEdgeWeight_fits w⟩

@[simp] theorem Arc.ofWeight_target (t : Nat) (w : Int) : (Arc.ofWeight t w).target = t := rfl

@[simp] theorem Arc.ofWeight_weight (t : Nat) (w : Int) : (Arc.ofWeight t w).weight = toEdgeWeight w := rfl

/-- An arc's own weight converts to itself. -/
@[simp] theorem Arc.ofWeight_self (x : Arc) : Arc.ofWeight x.target x.weight = x := by
  cases x
  simp only [Arc.ofWeight, Arc.mk.injEq, true_and]
  exact toEdgeWeight_of_fits ‹_›

/-- One level of the hierarchy: `number_of_nodes`, `getNodeWeight` (a
`NodeWeight`), and the out-edges of each node in CSR order. -/
structure Graph where
  n : Nat
  nodeWeight : Nat → Nat
  adj : Nat → List Arc
  nodeWeight_lt : ∀ v, nodeWeight v < 2 ^ 32

namespace Graph

variable (G : Graph)

/-- The sum of `f` over every arc `v → a.target` of the graph. -/
def arcSum (f : Nat → Arc → Int) : Int :=
  ∑ v in range G.n, ((G.adj v).map (f v)).sum

/-- `quality_metrics::edge_cut`. -/
def edgeCut (p : Nat → Nat) : Int :=
  G.arcSum (fun v a => if p v = p a.target then 0 else a.weight) / 2

/-- Number of nodes in block `b` under `p`. -/
def blockSizeOf (p : Nat → Nat) (b : Nat) : Int :=
  ∑ v in range G.n, if p v = b then 1 else 0

/-- Total node weight of block `b` under `p`. -/
def blockWeightOf (p : Nat → Nat) (b : Nat) : Int :=
  ∑ v in range G.n, if p v = b then (G.nodeWeight v : Int) else 0

/-- Weight of the arcs from `u` to `v` (all of them, should there be
several). -/
def wt (u v : Nat) : Int :=
  (((G.adj u).filter (·.target = v)).map (·.weight)).sum

/-- Every edge is stored from both ends with the same weight. -/
def Symmetric : Prop := ∀ u v, G.wt u v = G.wt v u

/-- Every arc ends at a node of the graph. -/
def Closed : Prop := ∀ v a, a ∈ G.adj v → a.target < G.n

/-! ## One label changed -/

/-- A sum over the nodes, of a summand that changes at one node only. -/
theorem sum_range_of_eq_off {n v : Nat} (hv : v < n) {f g : Nat → Int}
    (h : ∀ x, x ≠ v → f x = g x) :
    ∑ x in range n, f x = ∑ x in range n, g x - g v + f v := by
  have hm : v ∈ range n := mem_range.2 hv
  rw [← add_sum_erase _ f hm, ← add_sum_erase _ g hm,
    sum_congr rfl fun x hx => h x (ne_of_mem_erase hx)]
  ring

theorem blockSizeOf_update {p : Nat → Nat} {v : Nat} (hv : v < G.n) (t b : Nat) :
    G.blockSizeOf (Function.update p v t) b =
      G.blockSizeOf p b - (if p v = b then 1 else 0) + (if t = b then 1 else 0) := by
  unfold blockSizeOf
  rw [sum_range_of_eq_off hv fun x hx => by rw [Function.update_noteq hx]]
  simp

theorem blockWeightOf_update {p : Nat → Nat} {v : Nat} (hv : v < G.n) (t b : Nat) :
    G.blockWeightOf (Function.update p v t) b =
      G.blockWeightOf p b - (if p v = b then (G.nodeWeight v : Int) else 0)
        + (if t = b then (G.nodeWeight v : Int) else 0) := by
  unfold blockWeightOf
  rw [sum_range_of_eq_off hv fun x hx => by rw [Function.update_noteq hx]]
  simp

end Graph

end Kahip
