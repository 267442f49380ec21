import Kahip.ApplyMoves

/-!
# One batch of exploration: the claim protocol

Within a batch the threads' rounds interleave at the grain of their accesses
to `moved_idx` (`BatchStep`): a thread takes a step, an idle thread begins a
round with new start nodes, or another thread finishes. The trace records
the queue operations of every step.

A node enters a queue only after its thread won the `compare_exchange` of
`moved_idx` from `false` to `true`, and nothing in a batch sets it back; so
every node is inserted at most once, into one queue. A popped node is gone
from its queue, and a move is logged right after its node was popped; so the
logs of all threads hold each node at most once, sentinels aside. The
per-thread half of the argument is `exploreStep_inv`, by cases on where the
thread is; the batch half is `BatchInv`, preserved by every `BatchStep`.
-/

namespace Kahip

/-- The nodes of the logged moves, sentinels aside. -/
def moveNodes (X : ExploreCtx) (log : List LogEntry) : List Nat :=
  (log.filter (· ≠ X.sentinelEntry)).map (·.node)

@[simp] theorem moveNodes_nil (X : ExploreCtx) : moveNodes X [] = [] := rfl

@[simp] theorem moveNodes_append_sentinel (X : ExploreCtx) (log : List LogEntry) :
    moveNodes X (log ++ [X.sentinelEntry]) = moveNodes X log := by
  simp [moveNodes]

theorem moveNodes_append_sub (X : ExploreCtx) (log : List LogEntry) (m : LogEntry) :
    List.Sublist (moveNodes X (log ++ [m])) (moveNodes X log ++ [m.node]) := by
  by_cases hm : m = X.sentinelEntry <;> simp [moveNodes, hm]

namespace Pc

/-- A round is running. -/
def active : Pc → Bool
  | .done _ => false
  | _ => true

/-- The node of the move made but not yet logged. -/
def pending : Pc → Option Nat
  | .scan _ m _ => some m.node
  | .claim _ m _ _ _ => some m.node
  | _ => none

end Pc

namespace Event

/-- The node a step inserted into its queue. -/
def insertsOf : Option Event → List Nat
  | some (.insert v) => [v]
  | _ => []

/-- The node a step popped from its queue. -/
def popsOf : Option Event → List Nat
  | some (.pop v) => [v]
  | _ => []

end Event

/-- What a thread keeps, given the nodes it inserted and the nodes it popped
so far in the batch: each node popped once, and only after it was
inserted; while a round runs, the queue holds inserted nodes not popped yet;
and the logged moves, with the one being made, follow the pops. -/
structure ThreadInv (X : ExploreCtx) (t : Explorer) (ins pop : List Nat) : Prop where
  popNodup : pop.Nodup
  popIns : ∀ v ∈ pop, v ∈ ins
  queue : t.pc.active → ∀ v ∈ t.queue.nodes, v ∈ ins ∧ v ∉ pop
  logged : List.Sublist (moveNodes X t.log ++ t.pc.pending.toList) pop

variable {X : ExploreCtx}

/-! ## One thread -/

section Step

variable {idx idx' : Nat → Bool} {fin : Nat} {t t' : Explorer} {ev : Option Event}
  {ins pop : List Nat}

theorem ThreadInv.inserted (hi : ThreadInv X t ins pop) {v : Nat} (hv : v ∉ ins) {t' : Explorer}
    (hq : t'.queue.nodes = t.queue.nodes ++ [v]) (hlog : t'.log = t.log)
    (hp : t'.pc.pending = t.pc.pending) (hta : t.pc.active) :
    ThreadInv X t' (ins ++ [v]) pop where
  popNodup := hi.popNodup
  popIns := fun x hx => List.mem_append_left _ (hi.popIns x hx)
  queue := fun _ x hx => by
    rw [hq, List.mem_append, List.mem_singleton] at hx
    rcases hx with hx | rfl
    · exact ⟨List.mem_append_left _ (hi.queue hta x hx).1, (hi.queue hta x hx).2⟩
    · exact ⟨List.mem_append_right _ (List.mem_singleton_self _), fun hp => hv (hi.popIns _ hp)⟩
  logged := by rw [hlog, hp]; exact hi.logged

theorem ThreadInv.popped (hi : ThreadInv X t ins pop) (hta : t.pc.active) {v : Nat}
    (hv : v ∈ t.queue.nodes) {t' : Explorer}
    (hq : ∀ x, x ∈ t'.queue.nodes ↔ x ∈ t.queue.nodes ∧ x ≠ v)
    (hlog : List.Sublist (moveNodes X t'.log ++ t'.pc.pending.toList) (moveNodes X t.log ++ [v]))
    (hp : t.pc.pending = none) :
    ThreadInv X t' ins (pop ++ [v]) where
  popNodup := List.nodup_append.2 ⟨hi.popNodup, List.nodup_singleton v,
    List.disjoint_singleton.2 (hi.queue hta v hv).2⟩
  popIns := fun x hx => by
    rcases List.mem_append.1 hx with hx | hx
    · exact hi.popIns x hx
    · rw [List.mem_singleton.1 hx]; exact (hi.queue hta v hv).1
  queue := fun _ x hx => by
    obtain ⟨hx, hxv⟩ := (hq x).1 hx
    refine ⟨(hi.queue hta x hx).1, fun h => ?_⟩
    rcases List.mem_append.1 h with h | h
    · exact (hi.queue hta x hx).2 h
    · exact hxv (List.mem_singleton.1 h)
  logged := hlog.trans (by simpa [hp] using hi.logged.append (List.Sublist.refl [v]))

/-- A step that does no queue operation and keeps the log, the pending move
and the nodes of the queue (as a subset, while the round runs). -/
theorem ThreadInv.quiet (hi : ThreadInv X t ins pop) {t' : Explorer}
    (hq : t'.pc.active → t.pc.active ∧ ∀ x ∈ t'.queue.nodes, x ∈ t.queue.nodes)
    (hlog : List.Sublist (moveNodes X t'.log ++ t'.pc.pending.toList)
      (moveNodes X t.log ++ t.pc.pending.toList)) :
    ThreadInv X t' ins pop where
  popNodup := hi.popNodup
  popIns := hi.popIns
  queue := fun ha x hx => hi.queue (hq ha).1 x ((hq ha).2 x hx)
  logged := hlog.trans hi.logged

/-- A step that keeps the queue, the log and the pending move. -/
theorem ThreadInv.same (hi : ThreadInv X t ins pop) (hta : t.pc.active) {t' : Explorer}
    (hq : t'.queue = t.queue) (hlog : t'.log = t.log) (hp : t'.pc.pending = t.pc.pending) :
    ThreadInv X t' ins pop :=
  hi.quiet (fun _ => ⟨hta, fun _ hx => hq ▸ hx⟩) (by rw [hlog, hp])

/-! The three shapes of a step's result: no queue operation, a pop, and an
insert after a won `compare_exchange`. -/

theorem ThreadInv.stepQuiet (hi : ThreadInv X t ins pop) :
    ThreadInv X t (ins ++ Event.insertsOf none) (pop ++ Event.popsOf none) ∧
      (∀ x, idx x = (idx x || decide (x ∈ Event.insertsOf none))) ∧
      ∀ x ∈ Event.insertsOf none, idx x = false := by
  simpa [Event.insertsOf, Event.popsOf] using hi

theorem ThreadInv.stepPop {v : Nat} (hi : ThreadInv X t ins (pop ++ [v])) :
    ThreadInv X t (ins ++ Event.insertsOf (some (.pop v))) (pop ++ Event.popsOf (some (.pop v))) ∧
      (∀ x, idx x = (idx x || decide (x ∈ Event.insertsOf (some (.pop v))))) ∧
      ∀ x ∈ Event.insertsOf (some (.pop v)), idx x = false := by
  simpa [Event.insertsOf, Event.popsOf] using hi

theorem ThreadInv.stepInsert {v : Nat} (hi : ThreadInv X t (ins ++ [v]) pop) (hv : idx v = false) :
    ThreadInv X t (ins ++ Event.insertsOf (some (.insert v))) (pop ++ Event.popsOf (some (.insert v))) ∧
      (∀ x, Function.update idx v true x =
        (idx x || decide (x ∈ Event.insertsOf (some (.insert v))))) ∧
      ∀ x ∈ Event.insertsOf (some (.insert v)), idx x = false := by
  refine ⟨by simpa [Event.insertsOf, Event.popsOf] using hi, fun x => ?_, by simpa [Event.insertsOf] using hv⟩
  by_cases hx : x = v
  · subst hx; simp [Event.insertsOf]
  · simp [Event.insertsOf, hx]

/-- What one step of a thread does to its invariant and to `moved_idx`: the
only `moved_idx` entry it writes is that of the node it inserts, which was
`false`. -/
theorem exploreStep_inv (h : exploreStep X idx fin t = .ok (idx', t', ev))
    (hi : ThreadInv X t ins pop) (hfresh : ∀ v, idx v = false → v ∉ ins) :
    ThreadInv X t' (ins ++ Event.insertsOf ev) (pop ++ Event.popsOf ev) ∧
      (∀ v, idx' v = (idx v || decide (v ∈ Event.insertsOf ev))) ∧
      ∀ v ∈ Event.insertsOf ev, idx v = false := by
  unfold exploreStep at h
  split at h
  · -- the seeding loop is over
    rename_i hpc
    split at h <;> cases h
    · exact ThreadInv.stepQuiet (hi.quiet (fun ha => by simp [Pc.active] at ha) (by simp [hpc, Pc.pending]))
    · exact ThreadInv.stepQuiet (hi.same (by simp [hpc, Pc.active]) rfl rfl (by simp [hpc, Pc.pending]))
  · -- a start node: claimed by another thread, or claimed here
    rename_i v rest hpc
    have hta : t.pc.active := by simp [hpc, Pc.active]
    split at h <;> cases h
    · exact ThreadInv.stepQuiet (hi.same hta rfl rfl (by simp [hpc, Pc.pending]))
    · rename_i hv
      simp only [Bool.not_eq_true] at hv
      exact ThreadInv.stepInsert (hi.inserted (hfresh v hv) (by simp) rfl (by simp [hpc, Pc.pending]) hta) hv
  · -- the top of the main loop
    rename_i r hpc
    have hta : t.pc.active := by simp [hpc, Pc.active]
    have hfin : ∀ t0 : Explorer, t0.log = t.log → ThreadInv X (finishRound X t0 r) ins pop :=
      fun t0 h0 => hi.quiet (fun ha => by simp [finishRound, Pc.active] at ha)
        (by simp [finishRound, h0, hpc, Pc.pending])
    by_cases hgo : ¬r.movements < r.maxSwaps ∨ t.queue.isEmpty = true ∨ 0 < fin
    · rw [if_pos hgo] at h; cases h; exact ThreadInv.stepQuiet (hfin t rfl)
    rw [if_neg hgo] at h
    simp only [Oracle.stop, Oracle.pick] at h
    by_cases hs : t.oracle.stops 0 = true
    · rw [if_pos hs] at h; cases h; exact ThreadInv.stepQuiet (hfin _ rfl)
    rw [if_neg hs] at h
    have hne : t.queue.isEmpty = false := by simpa using (not_or.1 (not_or.1 hgo).2).1
    obtain ⟨hmem, hdel⟩ := PQ.deleteMax_spec hne (t.oracle.picks 0)
    rcases hdm : t.queue.deleteMax (t.oracle.picks 0) with ⟨node, queue⟩
    rw [hdm] at hmem hdel
    simp only [hdm] at h hmem hdel
    have hpop : ∀ t0 : Explorer, t0.queue = queue →
        List.Sublist (moveNodes X t0.log ++ t0.pc.pending.toList) (moveNodes X t.log ++ [node]) →
        ThreadInv X t0 ins (pop ++ [node]) :=
      fun t0 hq hl => hi.popped hta hmem (by simp [hq, hdel]) hl (by simp [hpc, Pc.pending])
    split at h
    · cases h
    split at h
    · cases h
    split at h
    · cases h; exact ThreadInv.stepPop (hpop _ rfl (by simp [Pc.pending]))
    split at h <;> cases h
    · exact ThreadInv.stepPop (hpop _ rfl (by simp [Pc.pending]))
    · exact ThreadInv.stepPop (hpop _ rfl (by simp [Pc.pending]))
  · -- the neighbour loop is over: log the move
    rename_i r m hpc
    simp only [Oracle.bit] at h
    split at h <;> split at h <;> cases h <;>
    exact ThreadInv.stepQuiet (hi.quiet (fun _ => ⟨by simp [hpc, Pc.active], fun _ hx => hx⟩)
      (by simpa [hpc, Pc.pending] using moveNodes_append_sub X t.log m))
  · -- a neighbour: update its gain, or read its claim
    rename_i r m v rest hpc
    have hta : t.pc.active := by simp [hpc, Pc.active]
    dsimp only at h
    split at h
    · cases h
      refine ThreadInv.stepQuiet (hi.quiet (fun _ => ⟨hta, fun x hx => ?_⟩) (by simp [hpc, Pc.pending]))
      dsimp only at hx
      split at hx
      · simpa using hx
      · exact (PQ.mem_nodes_deleteNode.1 hx).1
    split at h <;> (try split at h) <;> cases h <;>
      exact ThreadInv.stepQuiet (hi.same hta rfl rfl (by simp [hpc, Pc.pending]))
  · -- the compare_exchange on a neighbour
    rename_i r m v gain rest hpc
    have hta : t.pc.active := by simp [hpc, Pc.active]
    split at h <;> cases h
    · exact ThreadInv.stepQuiet (hi.same hta rfl rfl (by simp [hpc, Pc.pending]))
    · rename_i hv
      simp only [Bool.not_eq_true] at hv
      exact ThreadInv.stepInsert (hi.inserted (hfresh v hv) (by simp) rfl (by simp [hpc, Pc.pending]) hta) hv
  · -- an idle thread
    cases h; exact hi.stepQuiet

end Step

/-- A new round on an idle thread keeps its invariant: the queue it drops is
empty from then on. -/
theorem ThreadInv.beginRound {t : Explorer} {ins pop : List Nat} (hi : ThreadInv X t ins pop)
    {res : Int × Int × Nat} (hd : t.pc = .done res) (starts : List Nat) :
    ThreadInv X (t.beginRound starts) ins pop where
  popNodup := hi.popNodup
  popIns := hi.popIns
  queue := fun _ x hx => by simp [Explorer.beginRound] at hx
  logged := by simpa [Explorer.beginRound, Pc.pending, hd] using hi.logged

/-! ## The batch -/

/-- The state of a batch: `moved_idx`, `num_threads_finished`, every
thread's data, and, as ghost state, the queue operations so far, each with
its thread. -/
structure World where
  idx : Nat → Bool
  finished : Nat
  threads : Nat → Explorer
  trace : List (Nat × Event)

/-- The start of a batch: no node claimed, every thread idle with an empty
log. -/
structure World.Init (w : World) : Prop where
  idx : ∀ v, w.idx v = false
  trace : w.trace = []
  idle : ∀ i, ∃ res, (w.threads i).pc = .done res
  log : ∀ i, (w.threads i).log = []

/-- One step of the interleaving: a thread takes a step of its round, an
idle thread begins a round with any start nodes, or a thread finishes its
share of the work (`num_threads_finished++`). -/
inductive BatchStep (X : ExploreCtx) : World → World → Prop
  | step {w : World} {i : Nat} {idx' : Nat → Bool} {t' : Explorer} {ev : Option Event}
      (h : exploreStep X w.idx w.finished (w.threads i) = .ok (idx', t', ev)) :
      BatchStep X w ⟨idx', w.finished, Function.update w.threads i t', w.trace ++ (ev.map (i, ·)).toList⟩
  | round {w : World} {i : Nat} {res : Int × Int × Nat} (starts : List Nat)
      (h : (w.threads i).pc = .done res) :
      BatchStep X w
        ⟨w.idx, w.finished, Function.update w.threads i ((w.threads i).beginRound starts), w.trace⟩
  | finish {w : World} : BatchStep X w ⟨w.idx, w.finished + 1, w.threads, w.trace⟩

/-- The nodes thread `i` inserted into its queue, in order. -/
def insertsBy (i : Nat) (tr : List (Nat × Event)) : List Nat :=
  tr.flatMap fun p => if p.1 = i then Event.insertsOf (some p.2) else []

/-- The nodes thread `i` popped from its queue, in order. -/
def popsBy (i : Nat) (tr : List (Nat × Event)) : List Nat :=
  tr.flatMap fun p => if p.1 = i then Event.popsOf (some p.2) else []

theorem insertsBy_step (i j : Nat) (tr : List (Nat × Event)) (ev : Option Event) :
    insertsBy j (tr ++ (ev.map (i, ·)).toList) =
      insertsBy j tr ++ if i = j then Event.insertsOf ev else [] := by
  cases ev <;> simp [insertsBy, Event.insertsOf]

theorem popsBy_step (i j : Nat) (tr : List (Nat × Event)) (ev : Option Event) :
    popsBy j (tr ++ (ev.map (i, ·)).toList) = popsBy j tr ++ if i = j then Event.popsOf ev else [] := by
  cases ev <;> simp [popsBy, Event.popsOf]

/-- What holds in a batch: an inserted node is claimed in `moved_idx`, and
was inserted once, by one thread; every thread keeps `ThreadInv`. -/
structure BatchInv (X : ExploreCtx) (w : World) : Prop where
  claimed : ∀ i, ∀ v ∈ insertsBy i w.trace, w.idx v = true
  nodup : ∀ i, (insertsBy i w.trace).Nodup
  owner : ∀ i j v, v ∈ insertsBy i w.trace → v ∈ insertsBy j w.trace → i = j
  thread : ∀ i, ThreadInv X (w.threads i) (insertsBy i w.trace) (popsBy i w.trace)

theorem BatchInv.init {w : World} (h0 : w.Init) : BatchInv X w where
  claimed := by simp [h0.trace, insertsBy]
  nodup := by simp [h0.trace, insertsBy]
  owner := by simp [h0.trace, insertsBy]
  thread := fun i => by
    obtain ⟨res, hd⟩ := h0.idle i
    exact ⟨by simp [h0.trace, popsBy], by simp [h0.trace, popsBy],
      by simp [hd, Pc.active], by simp [h0.log i, hd, Pc.pending, moveNodes]⟩

theorem Event.insertsOf_nodup (ev : Option Event) : (Event.insertsOf ev).Nodup := by
  rcases ev with _ | _ | _ <;> simp [Event.insertsOf]

/-- A thread's step keeps the batch invariant: the node it inserts was
unclaimed, so no thread inserted it before. -/
theorem BatchInv.ofExploreStep {w : World} (hb : BatchInv X w) {i : Nat} {idx' : Nat → Bool}
    {t' : Explorer} {ev : Option Event}
    (h : exploreStep X w.idx w.finished (w.threads i) = .ok (idx', t', ev)) :
    BatchInv X ⟨idx', w.finished, Function.update w.threads i t', w.trace ++ (ev.map (i, ·)).toList⟩ := by
  obtain ⟨hti, hidx, hfree⟩ := exploreStep_inv h (hb.thread i)
    (fun v hv hvi => by simp [hb.claimed i v hvi] at hv)
  have hnew : ∀ j v, v ∈ insertsBy j w.trace → v ∉ Event.insertsOf ev := fun j v hv hn =>
    Bool.false_ne_true ((hfree v hn).symm.trans (hb.claimed j v hv))
  refine ⟨fun j v hv => ?_, fun j => ?_, fun j k v hj hk => ?_, fun j => ?_⟩
  · -- claimed
    rw [insertsBy_step] at hv
    show idx' v = true
    rw [hidx v]
    rcases List.mem_append.1 hv with hv | hv
    · simp [hb.claimed j v hv]
    · split at hv <;> simp_all
  · -- nodup
    show (insertsBy j (w.trace ++ _)).Nodup
    rw [insertsBy_step]
    split
    · exact List.nodup_append.2 ⟨hb.nodup j, Event.insertsOf_nodup ev, fun _ h1 h2 => hnew j _ h1 h2⟩
    · simpa using hb.nodup j
  · -- owner
    simp only [insertsBy_step] at hj hk
    rcases List.mem_append.1 hj with hj | hj <;> rcases List.mem_append.1 hk with hk | hk
    · exact hb.owner j k v hj hk
    · split at hk
      · exact absurd hk (hnew j v hj)
      · simp at hk
    · split at hj
      · exact absurd hj (hnew k v hk)
      · simp at hj
    · split at hj <;> split at hk <;> simp_all
  · -- thread
    show ThreadInv X _ (insertsBy j (w.trace ++ _)) (popsBy j (w.trace ++ _))
    rw [insertsBy_step, popsBy_step]
    by_cases hij : i = j
    · subst hij; simpa using hti
    · simpa [hij, Function.update_noteq (Ne.symm hij)] using hb.thread j

/-- A new round on an idle thread keeps the batch invariant. -/
theorem BatchInv.ofRound {w : World} (hb : BatchInv X w) {i : Nat} {res : Int × Int × Nat}
    (hd : (w.threads i).pc = .done res) (starts : List Nat) :
    BatchInv X ⟨w.idx, w.finished, Function.update w.threads i ((w.threads i).beginRound starts), w.trace⟩ where
  claimed := hb.claimed
  nodup := hb.nodup
  owner := hb.owner
  thread := fun j => by
    by_cases hij : j = i
    · subst hij; simpa using (hb.thread j).beginRound hd starts
    · simpa [Function.update_noteq hij] using hb.thread j

theorem BatchInv.step {w w' : World} (hb : BatchInv X w) (hs : BatchStep X w w') : BatchInv X w' := by
  cases hs with
  | step h => exact hb.ofExploreStep h
  | round starts hd => exact hb.ofRound hd starts
  | finish => exact ⟨hb.claimed, hb.nodup, hb.owner, hb.thread⟩

theorem BatchInv.run {w w' : World} (hb : BatchInv X w)
    (hr : Relation.ReflTransGen (BatchStep X) w w') : BatchInv X w' := by
  induction hr with
  | refl => exact hb
  | tail _ hs ih => exact ih.step hs

/-! ## The claim protocol -/

/-- In every interleaving of the threads' steps within a batch, a node
enters the queue of at most one thread, at most once; so each thread logs a
node at most once, and no two threads log the same node. -/
theorem claims_insert_each_node_once {w0 w : World} (h0 : w0.Init)
    (hr : Relation.ReflTransGen (BatchStep X) w0 w) :
    (∀ i, (insertsBy i w.trace).Nodup) ∧
      (∀ i j v, v ∈ insertsBy i w.trace → v ∈ insertsBy j w.trace → i = j) ∧
      (∀ i, (moveNodes X (w.threads i).log).Nodup) ∧
      ∀ i j v, v ∈ moveNodes X (w.threads i).log → v ∈ moveNodes X (w.threads j).log → i = j := by
  have hb := (BatchInv.init h0).run hr
  have hlog : ∀ i, List.Sublist (moveNodes X (w.threads i).log) (popsBy i w.trace) :=
    fun i => (List.sublist_append_left _ _).trans (hb.thread i).logged
  have hins : ∀ i v, v ∈ moveNodes X (w.threads i).log → v ∈ insertsBy i w.trace :=
    fun i v hv => (hb.thread i).popIns v ((hlog i).subset hv)
  exact ⟨hb.nodup, hb.owner, fun i => (hlog i).nodup (hb.thread i).popNodup,
    fun i j v hi hj => hb.owner i j v (hins i v hi) (hins j v hj)⟩

/-- Every thread idle on `bridgePart`, nothing claimed. -/
def idleWorld : World := ⟨fun _ => false, 0, fun _ => idleThread, []⟩

theorem claims_insert_each_node_once_on_bridge :
    ∃ w, Relation.ReflTransGen (BatchStep bridgeCtx) idleWorld w ∧ w.trace = [(0, .insert 1)] ∧
      (∀ i, (insertsBy i w.trace).Nodup) ∧
      (∀ i j v, v ∈ insertsBy i w.trace → v ∈ insertsBy j w.trace → i = j) ∧
      (∀ i, (moveNodes bridgeCtx (w.threads i).log).Nodup) ∧
      ∀ i j v, v ∈ moveNodes bridgeCtx (w.threads i).log →
        v ∈ moveNodes bridgeCtx (w.threads j).log → i = j := by
  have hr : Relation.ReflTransGen (BatchStep bridgeCtx) idleWorld _ :=
    (Relation.ReflTransGen.single (BatchStep.round (i := 0) [1] rfl)).tail (BatchStep.step (i := 0) rfl)
  exact ⟨_, hr, rfl, claims_insert_each_node_once
    ⟨fun _ => rfl, rfl, fun _ => ⟨_, rfl⟩, fun _ => rfl⟩ hr⟩

end Kahip
