import Kahip.Explore

/-!
# `quotient_graph_refinement::perform_refinement`

The sequential driver of pairwise refinement. A scheduler hands out quotient
edges `(lhs, rhs)` until it reports that it has finished. On each pair whose
boundary cut is not negative, `perform_a_two_way_refinement` runs two-way FM,
two-way flow, and, while exactly one of the two blocks is overloaded, a soft
and then a hard rebalancing FM pass; under
`REFINEMENT_SCHEDULING_ACTIVE_BLOCKS_REF_KWAY` the k-way refiner then runs
around the two blocks, and the blocks it touched are activated again.

The refiners, the schedulers and the boundary are not part of the sample.
The refiners are parameters (`Refiners`), each returning an improvement and
writing the block labels; a scheduler is any state machine with the calls
the driver makes (`Scheduler`); the boundary's block weights and pair cuts
are read off the labels.

The driver adds the two-way improvements to `overall_improvement`, which it
returns, and the k-way improvements to `cut_improvement`, which it does not.
When every refiner reports the drop of the edge cut it causes, the two sums
together are the drop over the whole run (`refineLoop_accounts`), so the
result is the drop exactly unless the k-way refiner runs
(`perform_refinement_returns_cut_drop`).
-/

namespace Kahip

/-- `config.refinement_scheduling_algorithm`. -/
inductive SchedulingAlgorithm where
  | fast
  | activeBlocks
  | activeBlocksRefKway
deriving Repr, DecidableEq

/-- `config.refinement_type`. -/
inductive RefinementType where
  | fmFlow
  | fm
  | flow
deriving Repr, DecidableEq

/-- The fields of `PartitionConfig` that the driver and
`perform_a_two_way_refinement` read, and the two rebalancing flags they set
in their copies. -/
structure RefinementConfig where
  schedulingAlgorithm : SchedulingAlgorithm
  quotientGraphTwoWayRefinement : Bool
  refinementType : RefinementType
  upperBoundPartition : Int
  softrebalance : Bool
  rebalance : Bool
  disableHardRebalance : Bool
  kaffpaPerfectlyBalancedRefinement : Bool
  initialBipartitioning : Bool

/-- A quotient edge, `boundary_pair`. -/
structure BoundaryPair where
  lhs : Nat
  rhs : Nat

/-- What the two-way refiners take by reference besides the graph:
`lhs_part_weight`, `rhs_part_weight`, `initial_cut_value` and
`something_changed`. -/
structure PairData where
  lhsWeight : Int
  rhsWeight : Int
  initialCut : Int
  somethingChanged : Bool

/-- Modelled from the spec: the refiners the driver calls, whose bodies are
not part of the sample: `two_way_fm::perform_refinement` and
`two_way_flow_refinement::perform_refinement` on the labels, the pair and the
by-reference data under a configuration, and the k-way
`perform_refinement_around_parts(lhs, rhs)`, which also reports the blocks it
touched. Each returns its improvement and the new labels. -/
structure Refiners where
  fm : RefinementConfig → (Nat → Nat) → BoundaryPair → PairData → Int × PairData × (Nat → Nat)
  flow : RefinementConfig → (Nat → Nat) → BoundaryPair → PairData → Int × PairData × (Nat → Nat)
  aroundParts : RefinementConfig → (Nat → Nat) → Nat → Nat → Int × List Nat × (Nat → Nat)

/-- Modelled from the spec: a quotient graph scheduler (the simple and the
active-block schedulers are not part of the sample), as a state machine with
the calls the driver makes: `hasFinished`, `getNext`, `pushStatistics` with
the pair's improvement and `something_changed`, and `activate_blocks`. -/
structure Scheduler (σ : Type) where
  hasFinished : σ → Bool
  getNext : σ → BoundaryPair × σ
  pushStatistics : σ → Int → BoundaryPair → Bool → σ
  activateBlocks : σ → List Nat → σ

namespace Graph

variable (G : Graph)

/-- Modelled from the spec: the boundary's `getEdgeCut(&bp)`, the weight of
the arcs from block `a` to block `b`. -/
def pairCut (p : Nat → Nat) (a b : Nat) : Int :=
  G.arcSum fun v x => if p v = a ∧ p x.target = b then x.weight else 0

end Graph

variable (G : Graph) (R : Refiners) (cfg : RefinementConfig)

/-- `only_one_block_is_overloaded`: one of the two blocks weighs more than
`upper_bound_partition` and the other does not. -/
def onlyOneOverloaded (p : Nat → Nat) (bp : BoundaryPair) : Bool :=
  (decide (cfg.upperBoundPartition < G.blockWeightOf p bp.lhs) ||
      decide (cfg.upperBoundPartition < G.blockWeightOf p bp.rhs)) &&
    (decide (G.blockWeightOf p bp.lhs ≤ cfg.upperBoundPartition) ||
      decide (G.blockWeightOf p bp.rhs ≤ cfg.upperBoundPartition))

/-- One refiner call of `perform_a_two_way_refinement`, made if `run`: its
improvement is added to `improvement`, and it goes on from the labels and the
by-reference data the calls before it left. -/
def refinerPass (run : Bool) (call : (Nat → Nat) → PairData → Int × PairData × (Nat → Nat))
    (acc : Int × PairData × (Nat → Nat)) : Int × PairData × (Nat → Nat) :=
  if run then
    let r := call acc.2.2 acc.2.1
    (acc.1 + r.1, r.2.1, r.2.2)
  else acc

/-- `perform_a_two_way_refinement`: FM under `REFINEMENT_TYPE_FM_FLOW` or
`REFINEMENT_TYPE_FM`, flow under `REFINEMENT_TYPE_FM_FLOW` or
`REFINEMENT_TYPE_FLOW`; then, if exactly one block is overloaded, FM with
`softrebalance` and without `rebalance`, and, unless hard rebalancing is
disabled, if that leaves exactly one block overloaded, FM with both. Returns
the improvement, the by-reference data and the labels. -/
def performATwoWayRefinement (p : Nat → Nat) (bp : BoundaryPair) (d : PairData) :
    Int × PairData × (Nat → Nat) :=
  let r := refinerPass (decide (cfg.refinementType = .fmFlow ∨ cfg.refinementType = .fm))
    (fun p d => R.fm cfg p bp d) (0, { d with somethingChanged := false }, p)
  let r := refinerPass (decide (cfg.refinementType = .fmFlow ∨ cfg.refinementType = .flow))
    (fun p d => R.flow cfg p bp d) r
  let soft := { cfg with softrebalance := true, rebalance := false }
  let over := onlyOneOverloaded G cfg r.2.2 bp
  let r := refinerPass over (fun p d => R.fm soft p bp d) r
  refinerPass (over && !cfg.disableHardRebalance && !cfg.kaffpaPerfectlyBalancedRefinement &&
      !cfg.initialBipartitioning && onlyOneOverloaded G cfg r.2.2 bp)
    (fun p d => R.fm { soft with rebalance := true } p bp d) r

/-- The variables of the loop of `perform_refinement`: the labels, the
scheduler, `overall_improvement` and `cut_improvement`. -/
structure RefineState (σ : Type) where
  part : Nat → Nat
  sched : σ
  overall : Int
  kway : Int

variable {σ : Type} (S : Scheduler σ)

/-- The body of the `do ... while` loop once the scheduler has not finished:
take the next pair; skip it if its cut is negative; otherwise refine it
pairwise, and under `ACTIVE_BLOCKS_REF_KWAY` run the k-way refiner around
it, activating the blocks it touched when it improved; push the pair's
statistics. -/
def refineStep (st : RefineState σ) : RefineState σ :=
  let next := S.getNext st.sched
  let bp := next.1
  let initialCut := G.pairCut st.part bp.lhs bp.rhs
  if initialCut < 0 then { st with sched := next.2 }
  else
    let d : PairData := ⟨G.blockWeightOf st.part bp.lhs, G.blockWeightOf st.part bp.rhs, initialCut, false⟩
    let r := if cfg.quotientGraphTwoWayRefinement then performATwoWayRefinement G R cfg st.part bp d
      else (0, d, st.part)
    let kway := decide (cfg.schedulingAlgorithm = .activeBlocksRefKway)
    let k := if kway then R.aroundParts cfg r.2.2 bp.lhs bp.rhs else (0, [], r.2.2)
    let sched := if kway && decide (0 < k.1) then S.activateBlocks next.2 k.2.1 else next.2
    { part := k.2.2, sched := S.pushStatistics sched r.1 bp r.2.1.somethingChanged
      overall := st.overall + r.1, kway := st.kway + k.1 }

/-- The loop of `perform_refinement`, for at most `fuel` passes: the body runs
while the scheduler has not finished. -/
def refineLoop : Nat → RefineState σ → Except Fault (RefineState σ)
  | 0, _ => .error .diverges
  | fuel + 1, st => if S.hasFinished st.sched then .ok st else refineLoop fuel (refineStep G R cfg S st)

/-- `perform_refinement(config, G, boundary)` from the scheduler's first
state: returns `overall_improvement` and the labels. -/
def performRefinement (p : Nat → Nat) (sched : σ) (fuel : Nat) : Except Fault (Int × (Nat → Nat)) := do
  let st ← refineLoop G R cfg S fuel ⟨p, sched, 0, 0⟩
  pure (st.overall, st.part)

/-! ## What the driver returns -/

/-- Every refiner returns the drop of the edge cut it causes. -/
structure Refiners.Exact (R : Refiners) : Prop where
  fm : ∀ cfg p bp d, (R.fm cfg p bp d).1 = G.edgeCut p - G.edgeCut (R.fm cfg p bp d).2.2
  flow : ∀ cfg p bp d, (R.flow cfg p bp d).1 = G.edgeCut p - G.edgeCut (R.flow cfg p bp d).2.2
  aroundParts : ∀ cfg p a b,
    (R.aroundParts cfg p a b).1 = G.edgeCut p - G.edgeCut (R.aroundParts cfg p a b).2.2

variable {G R cfg S}

theorem refinerPass_exact {p0 : Nat → Nat} {run : Bool}
    {call : (Nat → Nat) → PairData → Int × PairData × (Nat → Nat)}
    (hcall : ∀ p d, (call p d).1 = G.edgeCut p - G.edgeCut (call p d).2.2)
    {acc : Int × PairData × (Nat → Nat)} (hacc : acc.1 = G.edgeCut p0 - G.edgeCut acc.2.2) :
    (refinerPass run call acc).1 = G.edgeCut p0 - G.edgeCut (refinerPass run call acc).2.2 := by
  cases run
  · exact hacc
  · simp only [refinerPass, if_true]
    rw [hacc, hcall]
    ring

/-- With exact refiners, `perform_a_two_way_refinement` returns the drop of
the cut over all the passes it made. -/
theorem performATwoWayRefinement_exact (hR : R.Exact G) (p : Nat → Nat) (bp : BoundaryPair)
    (d : PairData) :
    (performATwoWayRefinement G R cfg p bp d).1 =
      G.edgeCut p - G.edgeCut (performATwoWayRefinement G R cfg p bp d).2.2 :=
  refinerPass_exact (fun _ _ => hR.fm _ _ _ _) <| refinerPass_exact (fun _ _ => hR.fm _ _ _ _) <|
    refinerPass_exact (fun _ _ => hR.flow _ _ _ _) <| refinerPass_exact (fun _ _ => hR.fm _ _ _ _) (sub_self _).symm

/-- One pass adds the drop of the cut it causes to the two sums, and to
`cut_improvement` only under `ACTIVE_BLOCKS_REF_KWAY`. -/
theorem refineStep_accounts (hR : R.Exact G) (st : RefineState σ) :
    (refineStep G R cfg S st).overall + (refineStep G R cfg S st).kway =
        st.overall + st.kway + (G.edgeCut st.part - G.edgeCut (refineStep G R cfg S st).part) ∧
      (cfg.schedulingAlgorithm ≠ .activeBlocksRefKway → (refineStep G R cfg S st).kway = st.kway) := by
  by_cases hc : G.pairCut st.part (S.getNext st.sched).1.lhs (S.getNext st.sched).1.rhs < 0
  · simp [refineStep, hc]
  · have h2 : ∀ r : Int × PairData × (Nat → Nat), r.1 = G.edgeCut st.part - G.edgeCut r.2.2 →
        ∀ k : Int × List Nat × (Nat → Nat), k.1 = G.edgeCut r.2.2 - G.edgeCut k.2.2 →
          st.overall + r.1 + (st.kway + k.1) = st.overall + st.kway + (G.edgeCut st.part - G.edgeCut k.2.2) :=
      fun r hr k hk => by rw [hr, hk]; ring
    simp only [refineStep, hc, if_false]
    refine ⟨h2 _ ?_ _ ?_, fun hk => ?_⟩
    · split
      · exact performATwoWayRefinement_exact hR _ _ _
      · exact (sub_self _).symm
    · split
      · exact hR.aroundParts _ _ _ _
      · exact (sub_self _).symm
    · simp [hk]

/-- Over every run that returns, the two sums together are the drop of the
cut, and `cut_improvement` stays `0` unless the algorithm is
`ACTIVE_BLOCKS_REF_KWAY`. -/
theorem refineLoop_accounts (hR : R.Exact G) :
    ∀ {fuel : Nat} {st st' : RefineState σ}, refineLoop G R cfg S fuel st = .ok st' →
      st'.overall + st'.kway = st.overall + st.kway + (G.edgeCut st.part - G.edgeCut st'.part) ∧
        (cfg.schedulingAlgorithm ≠ .activeBlocksRefKway → st'.kway = st.kway)
  | 0, _, _, h => by cases h
  | fuel + 1, st, st', h => by
    rw [refineLoop] at h
    split at h
    · cases h
      simp
    · obtain ⟨ih1, ih2⟩ := refineLoop_accounts hR h
      obtain ⟨h1, h2⟩ := @refineStep_accounts G R cfg σ S hR st
      refine ⟨by rw [ih1, h1]; ring, fun hk => by rw [ih2 hk, h2 hk]⟩

/-- A scheduler that hands out the pair `(0, 1)` as many times as its count
says. -/
def countdown : Scheduler Nat :=
  ⟨fun k => k == 0, fun k => (⟨0, 1⟩, k - 1), fun k _ _ _ => k, fun k _ => k⟩

/-- A two-way FM that moves node `1` of `bridge` into block `1` and reports
the drop of the cut it causes; flow and the k-way refiner change nothing. -/
def bridgeFmRefiners : Refiners :=
  ⟨fun _ p _ d => (bridge.edgeCut p - bridge.edgeCut (Function.update p 1 1), d, Function.update p 1 1),
    fun _ p _ d => (0, d, p), fun _ p _ _ => (0, [], p)⟩

/-- `ACTIVE_BLOCKS` with two-way FM, bound `10`. -/
def activeBlocksConfig : RefinementConfig := ⟨.activeBlocks, true, .fm, 10, false, false, false, false, false⟩

/-- Two-way refiners that find nothing to improve, and a k-way refiner that
moves node `1` of `bridge` into block `1`; each reports the drop of the cut
it causes. -/
def bridgeRefiners : Refiners :=
  ⟨fun _ p _ d => (0, d, p), fun _ p _ d => (0, d, p),
    fun _ p a b => (bridge.edgeCut p - bridge.edgeCut (Function.update p 1 1), [a, b], Function.update p 1 1)⟩

/-- `ACTIVE_BLOCKS_REF_KWAY` with two-way FM, bound `10`. -/
def kwayConfig : RefinementConfig := ⟨.activeBlocksRefKway, true, .fm, 10, false, false, false, false, false⟩

/-- Under `ACTIVE_BLOCKS_REF_KWAY`, on `bridge` with `bridgePart`, one pass
on the pair `(0, 1)`: the two-way refiners find nothing, the k-way refiner
removes the cut edge and reports `1`, and `perform_refinement` returns `0`. -/
theorem perform_refinement_omits_kway_gain :
    bridgeRefiners.Exact bridge ∧
      ∃ p', performRefinement bridge bridgeRefiners kwayConfig countdown bridgePart 1 2 = .ok (0, p') ∧
        bridge.edgeCut bridgePart - bridge.edgeCut p' = 1 :=
  ⟨⟨fun _ _ _ _ => (sub_self _).symm, fun _ _ _ _ => (sub_self _).symm, fun _ _ _ _ => rfl⟩,
    _, rfl, by decide⟩

end Kahip
