import Mathlib.Algebra.Order.BigOperators.Group.List
import Mathlib.Algebra.Order.Group.Int
import Kahip.Batch

/-!
# The keys of the queue during a round

`local_move_node` asserts, of the node it pops, that the key it was popped
with is the gain `td.compute_gain` gives the node in the thread's local view,
and that the gain has a target block (`expected_gain == gain`,
`to != INVALID_PARTITION`). The neighbour loop is what keeps the keys so: a
move changes the local label of one node, so only the gains of its neighbours
change, and the loop refreshes each neighbour in the queue (`changeKey`, or
`deleteNode` once it has left the boundary) and inserts the fresh ones with
their gain.

`td.compute_gain` is a parameter of the model; `GainLaws` is what the
argument needs of it, on any graph: the gain of a node reads the labels of its
neighbours only, a positive external degree comes with a target block, and
the external degree is the weight of the node's arcs into other blocks.
`connGain` has the three. The graph is undirected: the target of an arc has
an arc back (`Graph.Mutual`).

`init_queue_with_boundary` queues a start node whatever its external degree,
so that the degree of a node on the boundary is positive takes positive edge
weights (`GainLaws.boundary`): over a cut edge of weight `0` a start node is
queued with external degree `0` (`queue_key_without_external_degree`).

The invariant, `KeyInv`, is one case per place in the round. It reads
neither `moved_idx` nor `num_threads_finished`, so it holds whatever the other
threads claim between two steps of the thread (`ThreadStep`).
-/
namespace Kahip

/-- Every arc has its reverse: the out-edges of its target lead back. -/
def Graph.Mutual (G : Graph) : Prop := ∀ u a, a ∈ G.adj u → u ∈ (G.adj a.target).map (·.target)

/-- Every edge weight is positive. -/
def Graph.PositiveWeights (G : Graph) : Prop := ∀ v a, a ∈ G.adj v → 0 < a.weight

theorem Graph.PositiveWeights.sum_pos {G : Graph} (hp : G.PositiveWeights) {v : Nat} {P : Arc → Bool}
    {a : Arc} (ha : a ∈ G.adj v) (hP : P a) : 0 < (((G.adj v).filter P).map (·.weight)).sum :=
  List.sum_pos (((G.adj v).filter P).map (·.weight)) (fun _ hx => by
      obtain ⟨b, hb, rfl⟩ := List.mem_map.1 hx
      exact hp v b (List.mem_filter.1 hb).1)
    (List.ne_nil_of_mem (List.mem_map_of_mem _ (List.mem_filter.2 ⟨ha, hP⟩)))

/-- An undirected graph stored from both ends, with positive weights, has
every arc's reverse. -/
theorem Graph.Symmetric.mutual {G : Graph} (hs : G.Symmetric) (hp : G.PositiveWeights) : G.Mutual := by
  intro u a ha
  have hpos : 0 < G.wt a.target u := hs u a.target ▸ hp.sum_pos ha (by simp)
  by_contra hn
  have hnil : (G.adj a.target).filter (·.target = u) = [] :=
    List.filter_eq_nil_iff.2 fun b hb hbu => hn (List.mem_map.2 ⟨b, hb, of_decide_eq_true hbu⟩)
  simp [Graph.wt, hnil] at hpos

/-- A node with a neighbour in another block of the shared partition. -/
def ExploreCtx.OnBoundary (X : ExploreCtx) (v : Nat) : Prop := ∃ a ∈ X.G.adj v, X.part a.target ≠ X.part v

/-- What the argument needs of `td.compute_gain`, a parameter of the model. -/
structure GainLaws (X : ExploreCtx) : Prop where
  /-- The gain of `v` reads the labels of `v`'s neighbours only. -/
  locality : ∀ lab lab' v src, (∀ a ∈ X.G.adj v, lab a.target = lab' a.target) →
    X.gain lab v src = X.gain lab' v src
  /-- A positive external degree comes with a target block. -/
  target : ∀ lab v src, 0 < (X.gain lab v src).extDegree → (X.gain lab v src).maxGainer ≠ none
  /-- The external degree is the weight of the node's arcs into blocks other
  than `src`. -/
  extDegree : ∀ lab v src,
    (X.gain lab v src).extDegree = (((X.G.adj v).filter fun a => lab a.target ≠ src).map (·.weight)).sum

/-- With positive edge weights, a node with a neighbour in another block has a
positive external degree. -/
theorem GainLaws.boundary {X : ExploreCtx} (hl : GainLaws X) (hp : X.G.PositiveWeights) {lab : Nat → Nat}
    {v : Nat} (h : ∃ a ∈ X.G.adj v, lab a.target ≠ lab v) : 0 < (X.gain lab v (lab v)).extDegree := by
  obtain ⟨a, ha, hne⟩ := h
  rw [hl.extDegree]
  exact hp.sum_pos ha (by simpa using hne)

/-! ## The spec's gain -/

theorem foldl_option_eq_none {α β : Type} {f : Option β → α → Option β} (hf : ∀ b a, f (some b) a ≠ none)
    (l : List α) : ∀ {o : Option β}, l.foldl f o = none → o = none ∧ ∀ a ∈ l, f none a = none := by
  induction l with
  | nil => exact fun h => ⟨h, by simp⟩
  | cons a l ih =>
    intro o h
    obtain ⟨hfo, hl⟩ := ih h
    cases o with
    | none => exact ⟨rfl, fun x hx => (List.mem_cons.1 hx).elim (· ▸ hfo) (hl x)⟩
    | some b => exact absurd hfo (hf b a)

/-- The spec's gain reads the labels of the node's neighbours only. -/
theorem connGain_congr {G : Graph} {lab lab' : Nat → Nat} {v : Nat} (src : Nat)
    (h : ∀ a ∈ G.adj v, lab a.target = lab' a.target) : connGain G lab v src = connGain G lab' v src := by
  have hc : ∀ b, (G.adj v).filter (fun a => decide (lab a.target = b)) =
      (G.adj v).filter (fun a => decide (lab' a.target = b)) :=
    fun b => List.filter_congr fun a ha => by rw [h a ha]
  have hx : (G.adj v).filter (fun a => decide (lab a.target ≠ src)) =
      (G.adj v).filter (fun a => decide (lab' a.target ≠ src)) :=
    List.filter_congr fun a ha => by rw [h a ha]
  simp only [connGain, hc, hx]
  congr 1
  exact List.foldl_ext _ _ _ fun acc a ha => by rw [h a ha]

/-- With no neighbour outside `src` there is no target, and no external
degree either. -/
theorem connGain_extDegree_of_none {G : Graph} {lab : Nat → Nat} {v src : Nat}
    (h : (connGain G lab v src).maxGainer = none) : (connGain G lab v src).extDegree = 0 := by
  simp only [connGain] at h ⊢
  split
  · rename_i hbest
    obtain ⟨-, hall⟩ := foldl_option_eq_none (fun b a => by dsimp only; split <;> (try split) <;> simp) _ hbest
    have hnil : (G.adj v).filter (fun a => !decide (lab a.target = src)) = [] :=
      List.filter_eq_nil_iff.2 fun a ha => by
        have := hall a ha
        by_cases hs : lab a.target = src
        · simp [hs]
        · rw [if_neg hs] at this; cases this
    simp [hnil]
  · rename_i hb
    simp [hb] at h

theorem connGain_gainLaws {X : ExploreCtx} (hg : X.gain = connGain X.G) : GainLaws X where
  locality lab lab' v src h := by rw [hg]; exact connGain_congr src h
  target lab v src h hn := by
    rw [hg] at h hn
    rw [connGain_extDegree_of_none hn] at h
    exact lt_irrefl 0 h
  extDegree lab v src := by
    rw [hg]
    simp only [connGain]
    split <;> rfl

/-! ## The keys of the queue -/

/-- `td.compute_gain(v, td.get_local_partition(v), ...)`: the gain of `v` in
the thread's local view. -/
def Explorer.localGain (X : ExploreCtx) (t : Explorer) (v : Nat) : Gain :=
  X.gain (t.localPart X) v (t.localPart X v)

/-- Every entry of the queue has the local gain of its node as its key, with a
positive external degree; the nodes of `skip` aside. -/
def QueueExact (X : ExploreCtx) (t : Explorer) (skip : List Nat) : Prop :=
  ∀ p ∈ t.queue.entries, p.1 ∉ skip → p.2 = (t.localGain X p.1).gain ∧ 0 < (t.localGain X p.1).extDegree

/-- What holds where the thread is in its round. While it seeds the queue,
its local view is empty and the start nodes left are on the boundary. In the
neighbour loop of a move, the keys of the neighbours not visited yet may be
stale, and a neighbour it is about to claim has its local gain at hand. A
finished round leaves the local view empty. -/
def KeyInv (X : ExploreCtx) (t : Explorer) : Prop :=
  match t.pc with
  | .initQueue rest => (∀ v, t.lp v = none) ∧ (∀ v ∈ rest, X.OnBoundary v) ∧ QueueExact X t []
  | .loop _ => QueueExact X t []
  | .scan _ _ targets => QueueExact X t targets
  | .claim _ _ v gain rest =>
    QueueExact X t rest ∧ gain = (t.localGain X v).gain ∧ 0 < (t.localGain X v).extDegree
  | .done _ => ∀ v, t.lp v = none

/-- A step of the thread under whatever `moved_idx` and `num_threads_finished`
the other threads left it. -/
def ThreadStep (X : ExploreCtx) (t t' : Explorer) : Prop :=
  ∃ idx fin idx' ev, exploreStep X idx fin t = .ok (idx', t', ev)

section Keys

variable {X : ExploreCtx} {t t' : Explorer} {skip : List Nat} {v : Nat} {g : Int}

theorem localGain_eq_of_lp (hlp : t'.lp = t.lp) : t'.localGain X = t.localGain X := by
  have hp : t'.localPart X = t.localPart X := funext fun x => by simp only [Explorer.localPart, hlp]
  funext v
  simp only [Explorer.localGain, hp]

/-! One lemma per queue operation of a step that keeps the local view. -/

theorem QueueExact.cons (he : QueueExact X t skip) (v : Nat) : QueueExact X t (v :: skip) :=
  fun p hp hs => he p hp fun h => hs (List.mem_cons_of_mem v h)

theorem QueueExact.same (he : QueueExact X t skip) (hlp : t'.lp = t.lp) (hq : t'.queue = t.queue) :
    QueueExact X t' skip := by
  intro p hp hs
  rw [localGain_eq_of_lp hlp]
  exact he p (hq ▸ hp) hs

theorem QueueExact.insert (he : QueueExact X t skip) (hlp : t'.lp = t.lp) (hq : t'.queue = t.queue.insert v g)
    (hg : g = (t.localGain X v).gain ∧ 0 < (t.localGain X v).extDegree) : QueueExact X t' skip := by
  intro p hp hs
  rw [localGain_eq_of_lp hlp]
  rw [hq, PQ.mem_insert] at hp
  rcases hp with hp | rfl
  · exact he p hp hs
  · exact hg

theorem QueueExact.changeKey (he : QueueExact X t (v :: skip)) (hlp : t'.lp = t.lp)
    (hq : t'.queue = t.queue.changeKey v g)
    (hg : g = (t.localGain X v).gain ∧ 0 < (t.localGain X v).extDegree) : QueueExact X t' skip := by
  intro p hp hs
  rw [localGain_eq_of_lp hlp]
  rw [hq] at hp
  rcases PQ.mem_changeKey hp with ⟨hp, hv⟩ | rfl
  · exact he p hp (by simp [hv, hs])
  · exact hg

theorem QueueExact.deleteNode (he : QueueExact X t (v :: skip)) (hlp : t'.lp = t.lp)
    (hq : t'.queue = t.queue.deleteNode v) : QueueExact X t' skip := by
  intro p hp hs
  rw [localGain_eq_of_lp hlp]
  rw [hq, PQ.mem_deleteNode] at hp
  exact he p hp.1 (by simp [hp.2, hs])

/-- A neighbour not in the queue: nothing of it to refresh. -/
theorem QueueExact.absent (he : QueueExact X t (v :: skip)) (hv : t.queue.contains v = false)
    (hlp : t'.lp = t.lp) (hq : t'.queue = t.queue) : QueueExact X t' skip := by
  intro p hp hs
  rw [localGain_eq_of_lp hlp]
  rw [hq] at hp
  exact he p hp (by simp [PQ.ne_of_contains_eq_false hv hp, hs])

/-- A move changes the local label of one node, so only the gains of its
neighbours change: those are the nodes the neighbour loop visits. -/
theorem QueueExact.move (hl : GainLaws X) (hm : X.G.Mutual) (he : QueueExact X t []) {node dst : Nat}
    (hlp : t'.lp = Function.update t.lp node (some dst)) (hq : t'.queue = t.queue.deleteNode node) :
    QueueExact X t' ((X.G.adj node).map (·.target)) := by
  intro p hp hs
  rw [hq, PQ.mem_deleteNode] at hp
  have hpart : ∀ x, x ≠ node → t'.localPart X x = t.localPart X x := fun x hx => by
    simp only [Explorer.localPart, hlp, Function.update_noteq hx]
  have hgain : t'.localGain X p.1 = t.localGain X p.1 := by
    simp only [Explorer.localGain, hpart p.1 hp.2]
    exact hl.locality _ _ _ _ fun a ha => hpart _ fun hn => hs (hn ▸ hm p.1 a ha)
  rw [hgain]
  exact he p hp.1 (List.not_mem_nil _)

/-- At the top of the main loop, with every key exact, the pop passes both
assertions of `local_move_node`: the step returns. -/
theorem exploreStep_loop_ok (hl : GainLaws X) (he : QueueExact X t []) {r : Round} (hpc : t.pc = .loop r)
    (idx : Nat → Bool) (fin : Nat) : ∃ res, exploreStep X idx fin t = .ok res := by
  unfold exploreStep
  simp only [hpc]
  by_cases hgo : ¬r.movements < r.maxSwaps ∨ t.queue.isEmpty = true ∨ 0 < fin
  · rw [if_pos hgo]; exact ⟨_, rfl⟩
  rw [if_neg hgo]
  simp only [Oracle.stop, Oracle.pick]
  by_cases hs : t.oracle.stops 0 = true
  · rw [if_pos hs]; exact ⟨_, rfl⟩
  rw [if_neg hs]
  have hne : t.queue.isEmpty = false := by simpa using (not_or.1 (not_or.1 hgo).2).1
  obtain ⟨hent, -⟩ := PQ.deleteMax_entry hne (t.oracle.picks 0)
  rcases hdm : t.queue.deleteMax (t.oracle.picks 0) with ⟨node, queue⟩
  rw [hdm] at hent
  obtain ⟨hkey, hext⟩ := he _ hent (List.not_mem_nil _)
  obtain ⟨dst, hdst⟩ := Option.ne_none_iff_exists'.1 (hl.target _ _ _ hext)
  have hk : (X.gain (t.localPart X) node (t.localPart X node)).gain = t.queue.maxValue := hkey.symm
  simp only [hdm, hk, ne_eq, not_true_eq_false, ↓reduceIte]
  rw [hdst]
  dsimp only
  split
  · exact ⟨_, rfl⟩
  split <;> exact ⟨_, rfl⟩

/-- A round begins with an empty queue. -/
theorem KeyInv.beginRound (hlp : ∀ v, t.lp v = none) {starts : List Nat} (hs : ∀ v ∈ starts, X.OnBoundary v) :
    KeyInv X (t.beginRound starts) :=
  ⟨hlp, hs, fun p hp => by simp [Explorer.beginRound, PQ.empty] at hp⟩

variable (hl : GainLaws X) (hp : X.G.PositiveWeights) (hm : X.G.Mutual)
include hl hp hm

theorem KeyInv.step {idx idx' : Nat → Bool} {fin : Nat} {ev : Option Event} (hi : KeyInv X t)
    (h : exploreStep X idx fin t = .ok (idx', t', ev)) : KeyInv X t' := by
  unfold exploreStep at h
  split at h
  · -- the seeding loop is over
    rename_i hpc
    rw [KeyInv, hpc] at hi
    split at h <;> cases h
    · exact hi.1
    · exact hi.2.2
  · -- a start node
    rename_i v rest hpc
    rw [KeyInv, hpc] at hi
    obtain ⟨hlp, hb, he⟩ := hi
    have hrest : ∀ x ∈ rest, X.OnBoundary x := fun x hx => hb x (List.mem_cons_of_mem v hx)
    split at h <;> cases h
    · exact ⟨hlp, hrest, he⟩
    · obtain ⟨a, ha, hne⟩ := hb v (List.mem_cons_self v rest)
      refine ⟨hlp, hrest, he.insert rfl rfl ⟨rfl, hl.boundary hp ⟨a, ha, ?_⟩⟩⟩
      simpa [Explorer.localPart, hlp] using hne
  · -- the top of the main loop
    rename_i r hpc
    rw [KeyInv, hpc] at hi
    by_cases hgo : ¬r.movements < r.maxSwaps ∨ t.queue.isEmpty = true ∨ 0 < fin
    · rw [if_pos hgo] at h; cases h; exact fun _ => rfl
    rw [if_neg hgo] at h
    simp only [Oracle.stop, Oracle.pick] at h
    by_cases hs : t.oracle.stops 0 = true
    · rw [if_pos hs] at h; cases h; exact fun _ => rfl
    rw [if_neg hs] at h
    have hne : t.queue.isEmpty = false := by simpa using (not_or.1 (not_or.1 hgo).2).1
    obtain ⟨-, hdel⟩ := PQ.deleteMax_entry hne (t.oracle.picks 0)
    rcases hdm : t.queue.deleteMax (t.oracle.picks 0) with ⟨node, queue⟩
    rw [hdm] at hdel
    simp only [hdm] at h
    split at h
    · cases h
    split at h
    · cases h
    split at h
    · cases h; exact (hi.cons node).deleteNode rfl hdel
    split at h <;> cases h
    · exact (hi.cons node).deleteNode rfl hdel
    · exact hi.move hl hm rfl hdel
  · -- the neighbour loop is over: log the move
    rename_i r m hpc
    rw [KeyInv, hpc] at hi
    simp only [Oracle.bit] at h
    split at h <;> split at h <;> cases h <;> exact hi
  · -- a neighbour: refresh its key, or see whether to claim it
    rename_i r m v rest hpc
    rw [KeyInv, hpc] at hi
    dsimp only at h
    split at h
    · cases h
      dsimp only [KeyInv]
      split
      · exact hi.changeKey rfl rfl ⟨rfl, ‹_›⟩
      · exact hi.deleteNode rfl rfl
    rename_i hc
    simp only [Bool.not_eq_true] at hc
    split at h
    · cases h; exact hi.absent hc rfl rfl
    split at h <;> cases h
    · exact ⟨hi.absent hc rfl rfl, rfl, ‹_›⟩
    · exact hi.absent hc rfl rfl
  · -- the compare_exchange on a neighbour
    rename_i r m v gain rest hpc
    rw [KeyInv, hpc] at hi
    obtain ⟨he, hg⟩ := hi
    split at h <;> cases h
    · exact he
    · exact he.insert rfl rfl hg
  · -- an idle thread
    cases h; exact hi

theorem KeyInv.run (hi : KeyInv X t) (hr : Relation.ReflTransGen (ThreadStep X) t t') : KeyInv X t' := by
  induction hr with
  | refl => exact hi
  | tail _ hs ih =>
    obtain ⟨_, _, _, _, h⟩ := hs
    exact ih.step hl hp hm h

end Keys

theorem bridge_positiveWeights : bridge.PositiveWeights := by
  intro v a ha
  simp only [bridge] at ha
  split_ifs at ha <;> simp_all

theorem bridge_mutual : bridge.Mutual := by
  intro u a ha
  simp only [bridge] at ha ⊢
  split_ifs at ha <;> simp_all

/-- `bridge` with its edge of weight `0`: the edge is still cut. -/
def zeroBridge : Graph :=
  ⟨4, fun _ => 1, fun v => if v = 1 then [⟨2, 0, by decide⟩] else if v = 2 then [⟨1, 0, by decide⟩] else [],
    fun _ => by norm_num⟩

/-- Rounds on `zeroBridge`, as on `bridge`. -/
def zeroBridgeCtx : ExploreCtx := { bridgeCtx with G := zeroBridge, gain := connGain zeroBridge }

end Kahip
