import Kahip.Graph

/-!
# The shared state of the commit phase and its two primitive writes

`relaxed_move_node` and `relaxed_move_node_back` are the only routines of
the commit phase that write shared state: the block label of one node of
`td.G`, the boundary (through `postMovedBoundaryNodeUpdates`, whose body is
not part of this sample and stays abstract), and the boundary's per-block
counters `blockNoNodes` and `blockWeight`, which the callers maintain by
hand around every move. What the commit phase guarantees about shared state
is proved here about these two, once: a refused move writes nothing, a
roll-back right after a move restores labels and counters exactly, and both
keep exact counters exact.

`ALWAYS_ASSERT` aborts the process in every build, so a failed one is an
`Except` error (`Fault.assertion`); a loop that never exits is
`Fault.diverges`.
-/

namespace Kahip

/-- How a routine can fail to return normally. -/
inductive Fault where
  /-- an `ALWAYS_ASSERT` fails and aborts the process -/
  | assertion
  /-- a read past the end of a vector: undefined behaviour -/
  | outOfBounds
  /-- a loop never exits -/
  | diverges
  /-- an exception escapes and ends the process -/
  | exception
deriving Repr, DecidableEq

/-- Peeling one step off an `Except` computation that returned. -/
theorem bind_ok_iff {ε α γ : Type} {x : Except ε α} {f : α → Except ε γ} {b : γ} :
    x >>= f = .ok b ↔ ∃ a, x = .ok a ∧ f a = .ok b := by
  cases x <;> simp [bind, Except.bind]

/-- A computation found to succeed, with `f` of its result `y`, returns a
result. -/
theorem exists_ok_of_toOption {α β : Type} {x : Except Fault α} {f : α → β} {y : β}
    (h : x.toOption.map f = some y) : ∃ a, x = .ok a ∧ f a = y := by
  cases x with
  | error e => cases h
  | ok a => exact ⟨a, rfl, Option.some.inj h⟩

/-- The block labels of `td.G` and the boundary's block counters. -/
@[ext] structure Blocks where
  part : Nat → Nat
  blockNoNodes : Nat → Int
  blockWeight : Nat → Int

/-- All the commit phase shares: labels and counters, and the rest of the
boundary (its per-pair index), left abstract as `β`. -/
structure Shared (β : Type) where
  blocks : Blocks
  bnd : β

/-- What the commit phase reads and never writes: the graph, the balance
bound `config.upper_bound_partition`, and the boundary's update routine
`postMovedBoundaryNodeUpdates(node, {lhs, rhs})`, which reads the labels
after the move. -/
structure Ctx (β : Type) where
  G : Graph
  upperBound : Int
  postMoved : β → (Nat → Nat) → Nat → Nat → Nat → β

namespace Blocks

variable (G : Graph) (b : Blocks)

/-- The label and counter writes of a successful `relaxed_move_node`
(lines 846-858), in the source's order, so that `src = dst` leaves the
counters as they were. -/
def move (node src dst : Nat) : Blocks :=
  let w : Int := G.nodeWeight node
  let nn := Function.update b.blockNoNodes src (b.blockNoNodes src - 1)
  let bw := Function.update b.blockWeight src (b.blockWeight src - w)
  { part := Function.update b.part node dst
    blockNoNodes := Function.update nn dst (nn dst + 1)
    blockWeight := Function.update bw dst (bw dst + w) }

/-- The label and counter writes of `relaxed_move_node_back` (lines 901-915). -/
def back (node src dst : Nat) : Blocks :=
  let w : Int := G.nodeWeight node
  let nn := Function.update b.blockNoNodes src (b.blockNoNodes src + 1)
  let bw := Function.update b.blockWeight src (b.blockWeight src + w)
  { part := Function.update b.part node src
    blockNoNodes := Function.update nn dst (nn dst - 1)
    blockWeight := Function.update bw dst (bw dst - w) }

variable {G b} {node src dst : Nat}

@[simp] theorem move_part : (b.move G node src dst).part = Function.update b.part node dst := rfl

@[simp] theorem back_part : (b.back G node src dst).part = Function.update b.part node src := rfl

@[simp] theorem move_blockNoNodes (x : Nat) :
    (b.move G node src dst).blockNoNodes x =
      b.blockNoNodes x - (if x = src then 1 else 0) + (if x = dst then 1 else 0) := by
  simp only [move, Function.update_apply]
  split_ifs <;> subst_vars <;> omega

@[simp] theorem move_blockWeight (x : Nat) :
    (b.move G node src dst).blockWeight x =
      b.blockWeight x - (if x = src then (G.nodeWeight node : Int) else 0)
        + (if x = dst then (G.nodeWeight node : Int) else 0) := by
  simp only [move, Function.update_apply]
  split_ifs <;> subst_vars <;> omega

@[simp] theorem back_blockNoNodes (x : Nat) :
    (b.back G node src dst).blockNoNodes x =
      b.blockNoNodes x + (if x = src then 1 else 0) - (if x = dst then 1 else 0) := by
  simp only [back, Function.update_apply]
  split_ifs <;> subst_vars <;> omega

@[simp] theorem back_blockWeight (x : Nat) :
    (b.back G node src dst).blockWeight x =
      b.blockWeight x + (if x = src then (G.nodeWeight node : Int) else 0)
        - (if x = dst then (G.nodeWeight node : Int) else 0) := by
  simp only [back, Function.update_apply]
  split_ifs <;> subst_vars <;> omega

/-- Rolling a move back right after it was made restores labels and counters. -/
theorem back_move (h : b.part node = src) : (b.move G node src dst).back G node src dst = b := by
  ext x
  · by_cases hx : x = node <;> simp [hx, h]
  · simp only [back_blockNoNodes, move_blockNoNodes]; omega
  · simp only [back_blockWeight, move_blockWeight]; omega

/-! ## Exact counters -/

/-- The counters are exact: each block's `blockNoNodes` and `blockWeight` are
its real size and weight. -/
def Exact (G : Graph) (b : Blocks) : Prop :=
  ∀ x, b.blockNoNodes x = G.blockSizeOf b.part x ∧ b.blockWeight x = G.blockWeightOf b.part x

theorem Exact.move (h : Exact G b) (hv : node < G.n) (hs : b.part node = src) :
    Exact G (b.move G node src dst) := by
  intro x
  obtain ⟨h1, h2⟩ := h x
  rw [move_blockNoNodes, move_blockWeight, move_part, G.blockSizeOf_update hv,
    G.blockWeightOf_update hv, hs, h1, h2]
  simp only [eq_comm (a := x), and_self]

theorem Exact.back (h : Exact G b) (hv : node < G.n) (hd : b.part node = dst) :
    Exact G (b.back G node src dst) := by
  intro x
  obtain ⟨h1, h2⟩ := h x
  rw [back_blockNoNodes, back_blockWeight, back_part, G.blockSizeOf_update hv,
    G.blockWeightOf_update hv, hd, h1, h2]
  constructor <;> simp only [eq_comm (a := x)] <;> ring

end Blocks

variable {β : Type} (c : Ctx β)

/-- `relaxed_move_node`: refuse a move that would bring the target block to
the bound or empty the source block, else write it. -/
def relaxedMoveNode (s : Shared β) (node src dst : Nat) : Except Fault (Bool × Shared β) :=
  if s.blocks.part node ≠ src then .error .assertion
  else if s.blocks.blockWeight dst + c.G.nodeWeight node ≥ c.upperBound then .ok (false, s)
  else if s.blocks.blockNoNodes src = 1 then .ok (false, s)
  else .ok (true, ⟨s.blocks.move c.G node src dst,
    c.postMoved s.bnd (Function.update s.blocks.part node dst) node src dst⟩)

/-- `relaxed_move_node_back`: move `node` from `dst` back to `src`, with no
check but the assertion that it is in `dst`. -/
def relaxedMoveNodeBack (s : Shared β) (node src dst : Nat) : Except Fault (Shared β) :=
  if s.blocks.part node ≠ dst then .error .assertion
  else .ok ⟨s.blocks.back c.G node src dst,
    c.postMoved s.bnd (Function.update s.blocks.part node src) node src dst⟩

variable {c} {s s' : Shared β} {node src dst : Nat}

/-- Called with the node's current block, `relaxed_move_node` returns. -/
theorem relaxedMoveNode_current (s : Shared β) (node dst : Nat) :
    ∃ r, relaxedMoveNode c s node (s.blocks.part node) dst = .ok r := by
  unfold relaxedMoveNode
  split_ifs with h <;> simp_all

/-- What a successful `relaxed_move_node` saw and did. -/
theorem relaxedMoveNode_true (h : relaxedMoveNode c s node src dst = .ok (true, s')) :
    s.blocks.part node = src ∧ s.blocks.blockWeight dst + c.G.nodeWeight node < c.upperBound ∧
      s.blocks.blockNoNodes src ≠ 1 ∧ s'.blocks = s.blocks.move c.G node src dst := by
  unfold relaxedMoveNode at h
  split_ifs at h with h1 h2 h3 <;> cases h
  exact ⟨not_not.1 h1, not_le.1 h2, h3, rfl⟩

/-- A refused move writes nothing: labels, boundary and counters stay. -/
theorem relaxedMoveNode_false (h : relaxedMoveNode c s node src dst = .ok (false, s')) :
    s' = s := by
  unfold relaxedMoveNode at h
  split_ifs at h <;> cases h <;> rfl

theorem relaxedMoveNode_part (h : relaxedMoveNode c s node src dst = .ok r) :
    s.blocks.part node = src := by
  unfold relaxedMoveNode at h
  by_contra h1
  rw [if_pos h1] at h
  cases h

theorem relaxedMoveNodeBack_ok (h : relaxedMoveNodeBack c s node src dst = .ok s') :
    s.blocks.part node = dst ∧ s'.blocks = s.blocks.back c.G node src dst := by
  unfold relaxedMoveNodeBack at h
  split_ifs at h with h1
  cases h
  exact ⟨not_not.1 h1, rfl⟩

/-- A roll-back right after a successful move returns, and restores labels
and counters. -/
theorem relaxedMoveNodeBack_after (h : relaxedMoveNode c s node src dst = .ok (true, s')) :
    ∃ s'', relaxedMoveNodeBack c s' node src dst = .ok s'' ∧ s''.blocks = s.blocks := by
  obtain ⟨hp, -, -, hb⟩ := relaxedMoveNode_true h
  have hd : s'.blocks.part node = dst := by simp [hb]
  exact ⟨_, if_neg (not_not.2 hd), by rw [hb]; exact Blocks.back_move hp⟩

/-- Both primitives keep exact counters exact, whatever they return. -/
theorem relaxedMoveNode_exact (hv : node < c.G.n) (he : s.blocks.Exact c.G)
    (h : relaxedMoveNode c s node src dst = .ok (r, s')) : s'.blocks.Exact c.G := by
  cases r with
  | false => rwa [relaxedMoveNode_false h]
  | true =>
    obtain ⟨hp, -, -, hb⟩ := relaxedMoveNode_true h
    exact hb ▸ he.move hv hp

theorem relaxedMoveNodeBack_exact (hv : node < c.G.n) (he : s.blocks.Exact c.G)
    (h : relaxedMoveNodeBack c s node src dst = .ok s') : s'.blocks.Exact c.G := by
  obtain ⟨hp, hb⟩ := relaxedMoveNodeBack_ok h
  exact hb ▸ he.back hv hp

end Kahip
