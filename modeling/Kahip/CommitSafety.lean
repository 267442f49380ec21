import Kahip.QueueKeys

/-!
# The commit fails none of its block assertions

`apply_moves` replays each thread's log on the shared labels. Three of its
assertions check a node's block: `relaxed_move_node` finds the node in the
from-block it is given, `relaxed_move_node_back` finds it in its `to` block,
and `move_node` in `local_search_from_one_node` finds a target block for the
node it pops. Here they hold when every thread's replayed entries are of
distinct nodes, each logged from its block in the labels the commit starts
from, and no two threads replay a common node.

The proof is a frame argument. `NoAssert Q x` says that `x` ends in no failed
assertion and returns something satisfying `Q`; each routine of the commit
gets one such lemma, whose `Q` bounds the labels it may change (`KeepsOff`).
A thread's commit changes only the nodes it replays, so every thread still to
commit finds its nodes where the exploration saw them.
-/

namespace Kahip

/-! ## Returning without a failed assertion -/

/-- `x` does not end in a failed assertion, and what it returns satisfies `Q`. -/
def NoAssert {α : Type} (Q : α → Prop) : Except Fault α → Prop
  | .ok a => Q a
  | .error f => f ≠ .assertion

namespace NoAssert

variable {α γ : Type} {Q Q' : α → Prop} {R : γ → Prop} {x : Except Fault α}

theorem ne (h : NoAssert Q x) : x ≠ .error .assertion := by
  cases x with
  | error f => exact fun h' => h (Except.error.inj h')
  | ok a => exact Except.noConfusion

theorem intro (hne : x ≠ .error .assertion) (hok : ∀ a, x = .ok a → Q a) : NoAssert Q x := by
  cases x with
  | error f => exact fun h => hne (h ▸ rfl)
  | ok a => exact hok a rfl

theorem bind {f : α → Except Fault γ} (hx : NoAssert Q x) (hf : ∀ a, Q a → NoAssert R (f a)) :
    NoAssert R (x >>= f) := by
  cases x with
  | error f => exact hx
  | ok a => exact hf a hx

theorem mono (h : NoAssert Q x) (hQ : ∀ a, Q a → Q' a) : NoAssert Q' x := by
  cases x with
  | error f => exact h
  | ok a => exact hQ a h

end NoAssert

theorem entryAt_noAssert {α : Type} (l : List α) (i : Nat) :
    NoAssert (fun a => l[i]? = some a) (entryAt l i) := by
  unfold entryAt
  split
  · assumption
  · exact Fault.noConfusion

/-! ## What a step may change -/

variable {β : Type}

/-- Outside `S`, the labels of `s'` are those of `s`. -/
def KeepsOff (S : Nat → Prop) (s s' : Shared β) : Prop :=
  ∀ v, ¬ S v → s'.blocks.part v = s.blocks.part v

namespace KeepsOff

variable {S T : Nat → Prop} {s s' s'' : Shared β}

theorem refl (S : Nat → Prop) (s : Shared β) : KeepsOff S s s := fun _ _ => rfl

theorem trans (h : KeepsOff S s s') (h' : KeepsOff S s' s'') : KeepsOff S s s'' :=
  fun v hv => (h' v hv).trans (h v hv)

theorem mono (h : KeepsOff S s s') (hST : ∀ v, S v → T v) : KeepsOff T s s' :=
  fun v hv => h v fun hs => hv (hST v hs)

theorem of_blocks (h : s'.blocks = s.blocks) : KeepsOff S s s' := fun v _ => by rw [h]

end KeepsOff

variable {c : Ctx β} {s s' : Shared β} {node src dst : Nat}

theorem relaxedMoveNode_keepsOff {b : Bool} (h : relaxedMoveNode c s node src dst = .ok (b, s')) :
    KeepsOff (· = node) s s' := by
  cases b with
  | false => rw [relaxedMoveNode_false h]; exact .refl _ _
  | true =>
    intro v hv
    rw [(relaxedMoveNode_true h).2.2.2, Blocks.move_part, Function.update_noteq hv]

theorem relaxedMoveNodeBack_keepsOff (h : relaxedMoveNodeBack c s node src dst = .ok s') :
    KeepsOff (· = node) s s' := by
  intro v hv
  rw [(relaxedMoveNodeBack_ok h).2, Blocks.back_part, Function.update_noteq hv]

theorem unrollRelaxedMoves_keepsOff {log : List LogEntry} {start : Nat} :
    ∀ {k : Nat} {s s' : Shared β} {mn mn' : Nat → Option (Nat × Nat)} {cut cut' : Int},
      unrollRelaxedMoves c log start k s mn cut = .ok (s', mn', cut') →
        KeepsOff (nodesIn log start (start + k)) s s'
  | 0, s, s', mn, mn', cut, cut', h => by cases h; exact .refl _ _
  | k + 1, s, s', mn, mn', cut, cut', h => by
    obtain ⟨le, he, h⟩ := bind_ok_iff.1 h
    obtain ⟨s1, hb, h⟩ := bind_ok_iff.1 h
    refine KeepsOff.trans ((relaxedMoveNodeBack_keepsOff hb).mono fun v hv => ?_)
      ((unrollRelaxedMoves_keepsOff h).mono fun v hv => nodesIn_mono le_rfl (by omega) hv)
    exact ⟨start + k, le, by omega, by omega, entryAt_ok he, hv.symm⟩

theorem rollBackwards_keepsOff {keep : Nat} :
    ∀ {ms kept : List Move} {s s' : Shared β}, rollBackwards c keep ms s = .ok (s', kept) →
      KeepsOff (fun v => ∃ m ∈ ms, m.node = v) s s'
  | [], kept, s, s', h => by
    simp only [rollBackwards, Except.ok.injEq, Prod.mk.injEq] at h
    rw [← h.1]; exact .refl _ _
  | m :: ms, kept, s, s', h => by
    simp only [rollBackwards] at h
    split_ifs at h
    · obtain ⟨s1, hb, h⟩ := bind_ok_iff.1 h
      exact ((relaxedMoveNodeBack_keepsOff hb).mono fun _ hv => ⟨m, List.mem_cons_self m ms, hv.symm⟩).trans
        ((rollBackwards_keepsOff h).mono fun v ⟨m', hm', hv⟩ => ⟨m', List.mem_cons_of_mem m hm', hv⟩)
    · cases h; exact .refl _ _

variable {e : Env β}

theorem recalcLoop_keepsOff {log : List LogEntry} :
    ∀ {k index : Nat} {r r' : RecalcState β}, recalcLoop e log k index r = .ok r' →
      KeepsOff (nodesIn log index (index + k)) r.sh r'.sh ∧
        ∀ m ∈ r'.moves, m ∈ r.moves ∨ nodesIn log index (index + k) m.node
  | 0, _, r, r', h => by cases h; exact ⟨.refl _ _, fun m hm => .inl hm⟩
  | k + 1, index, r, r', h => by
    obtain ⟨le, he, h⟩ := bind_ok_iff.1 h
    have hle : nodesIn log index (index + (k + 1)) le.node :=
      ⟨index, le, le_rfl, by omega, entryAt_ok he, rfl⟩
    have hwiden : ∀ v, nodesIn log (index + 1) (index + 1 + k) v → nodesIn log index (index + (k + 1)) v :=
      fun v hv => nodesIn_mono (by omega) (by omega) hv
    simp only at h
    split at h
    · obtain ⟨hk, hm⟩ := recalcLoop_keepsOff h
      exact ⟨hk.mono hwiden, fun m h' => (hm m h').imp_right (hwiden _)⟩
    · obtain ⟨⟨success, sh⟩, hmv, h⟩ := bind_ok_iff.1 h
      have hk1 := (relaxedMoveNode_keepsOff hmv).mono fun v (hv : v = le.node) => hv ▸ hle
      cases success with
      | false =>
        obtain ⟨hk, hm⟩ := recalcLoop_keepsOff h
        exact ⟨hk1.trans (hk.mono hwiden), fun m h' => (hm m h').imp_right (hwiden _)⟩
      | true =>
        simp only [if_true] at h
        obtain ⟨hk, hm⟩ := recalcLoop_keepsOff h
        refine ⟨hk1.trans (hk.mono hwiden), fun m h' => ?_⟩
        rcases hm m h' with h' | h'
        · rcases List.mem_cons.1 h' with rfl | h'
          · exact .inr hle
          · exact .inl h'
        · exact .inr (hwiden _ h')

theorem gainRecalculation_keepsOff {log : List LogEntry} {start stop : Nat} {ct : Bool} {c c' : Commit β}
    {o o' : Oracle} {res : Int × Int} (h : gainRecalculation e log start stop ct c o = .ok (res, c', o')) :
    KeepsOff (nodesIn log start stop) c.sh c'.sh := by
  obtain ⟨r, hr, h⟩ := bind_ok_iff.1 h
  obtain ⟨⟨sh, kept⟩, hrb, h⟩ := bind_ok_iff.1 h
  cases h
  obtain ⟨hk, hm⟩ := recalcLoop_keepsOff hr
  have hwiden : ∀ v, nodesIn log start (start + (stop - start)) v → nodesIn log start stop v :=
    fun v ⟨p, le, h1, h2, h3⟩ => ⟨p, le, h1, by omega, h3⟩
  exact (hk.mono hwiden).trans ((rollBackwards_keepsOff hrb).mono fun v ⟨m, hm', hv⟩ => by
    rcases hm m hm' with h' | h'
    · simp [recalcStart] at h'
    · exact hv ▸ hwiden _ h')

theorem recalcLoop_noAssert {log : List LogEntry} :
    ∀ (k index : Nat) (r : RecalcState β), NoAssert (fun _ => True) (recalcLoop e log k index r)
  | 0, _, _ => trivial
  | k + 1, index, r => (entryAt_noAssert _ _).bind fun le _ => by
    dsimp only
    split
    · exact recalcLoop_noAssert k _ r
    · rename_i dst _
      obtain ⟨⟨success, sh⟩, hmv⟩ := relaxedMoveNode_current (c := e.toCtx) r.sh le.node dst
      rw [hmv]
      cases success
      · exact recalcLoop_noAssert k _ _
      · exact recalcLoop_noAssert k _ _

/-- `gain_recalculation` moves each node from its current block and rolls back
only moves it made, so it fails no assertion; it changes only nodes of the
entries it reads. -/
theorem gainRecalculation_noAssert (log : List LogEntry) (start stop : Nat) (ct : Bool) (c : Commit β)
    (o : Oracle) : NoAssert (fun res => KeepsOff (nodesIn log start stop) c.sh res.2.1.sh)
      (gainRecalculation e log start stop ct c o) := by
  refine NoAssert.intro ?_ fun _ h => gainRecalculation_keepsOff h
  unfold gainRecalculation
  refine (NoAssert.bind (Q := fun r => MovedAll e.toCtx c.sh r.moves.reverse r.sh) (R := fun _ => True)
    (NoAssert.intro (recalcLoop_noAssert _ _ _).ne
      fun _ h => (recalcLoop_inv (recalcInv_start c.sh o) h).1)
    fun r hrun => ?_).ne
  obtain ⟨s, sm, hrb, -⟩ := rollBackwards_restores (r.bestIndex + 1).toNat hrun rfl
  dsimp only
  rw [hrb]
  trivial

/-! ## The local search pops only nodes with a target block -/

/-- What the local search needs of `compute_gain` on the shared labels: it
reads the labels of the node and its neighbours only, and it proposes a target
block whenever the node has an external degree. -/
structure ComputeGainLaws (e : Env β) : Prop where
  locality : ∀ lab lab' v, lab v = lab' v → (∀ a ∈ e.G.adj v, lab a.target = lab' a.target) →
    e.computeGain lab v = e.computeGain lab' v
  target : ∀ lab v, (e.computeGain lab v).maxGainer = none → (e.computeGain lab v).extDegree = 0

/-- The spec's gain, read on the shared labels, keeps these laws. -/
theorem connGain_computeGainLaws {e : Env β} (hg : e.computeGain = fun p v => connGain e.G p v (p v)) :
    ComputeGainLaws e where
  locality lab lab' v hv h := by
    rw [hg]
    dsimp only
    rw [hv]
    exact connGain_congr _ h
  target lab v h := by
    rw [hg] at h ⊢
    exact connGain_extDegree_of_none h

/-- Every node in the search queue, those of `skip` aside, has an external
degree on the labels `part`. -/
def QueueLive (e : Env β) (part : Nat → Nat) (q : PQ) (skip : List Nat) : Prop :=
  ∀ p ∈ q.entries, p.1 ∉ skip → (e.computeGain part p.1).extDegree ≠ 0

theorem QueueLive.update {part : Nat → Nat} {qm : PQ × List Nat} {target : Nat} {skip : List Nat}
    (h : QueueLive e part qm.1 (target :: skip)) :
    QueueLive e part (updateNeighbour e part qm target).1 skip := by
  intro p hp hs
  have hold : p ∈ qm.1.entries → p.1 ≠ target → (e.computeGain part p.1).extDegree ≠ 0 :=
    fun hq ht => h p hq (by simp [ht, hs])
  simp only [updateNeighbour] at hp
  split_ifs at hp with hc hg hg'
  · rcases PQ.mem_changeKey hp with ⟨hq, ht⟩ | rfl
    · exact hold hq ht
    · exact hg.ne'
  · rw [PQ.mem_deleteNode] at hp
    exact hold hp.1 hp.2
  · rcases PQ.mem_insert.1 hp with hq | rfl
    · exact hold hq (PQ.ne_of_contains_eq_false (Bool.not_eq_true _ ▸ hc) hq)
    · exact hg'.1.ne'
  · exact hold hp (PQ.ne_of_contains_eq_false (Bool.not_eq_true _ ▸ hc) hp)

theorem QueueLive.updateAll {part : Nat → Nat} :
    ∀ (ts : List Nat) {qm : PQ × List Nat} {skip : List Nat}, QueueLive e part qm.1 (ts ++ skip) →
      QueueLive e part (ts.foldl (updateNeighbour e part) qm).1 skip
  | [], _, _, h => h
  | t :: ts, qm, skip, h => by
    rw [List.foldl_cons]
    exact QueueLive.updateAll ts (QueueLive.update (h : QueueLive e part qm.1 (t :: (ts ++ skip))))

/-- A move changes the label of one node, so only the external degrees of the
node and its neighbours change. -/
theorem QueueLive.move (hl : ComputeGainLaws e) (hm : e.G.Mutual) {s s' : Shared β} {q : PQ} {node : Nat}
    (h : QueueLive e s.blocks.part q []) (hs : KeepsOff (· = node) s s') :
    QueueLive e s'.blocks.part (q.deleteNode node) ((e.G.adj node).map (·.target)) := by
  intro p hp hskip
  rw [PQ.mem_deleteNode] at hp
  rw [hl.locality _ (s.blocks.part) p.1 (hs _ hp.2) fun a ha => hs _ fun hn => hskip (hn ▸ hm p.1 a ha)]
  exact h p hp.1 (List.not_mem_nil _)

/-- `move_node` on a node popped from a queue of nodes with an external
degree: the node has a target block, and the queue it returns again holds
only nodes with an external degree on the labels after the move. -/
theorem moveNode_noAssert (hl : ComputeGainLaws e) (hm : e.G.Mutual) {s : Shared β} {q : PQ} {node : Nat}
    {g : Int} (hq : QueueLive e s.blocks.part q []) (hn : (node, g) ∈ q.entries) (moved : List Nat) :
    NoAssert (fun res => QueueLive e res.2.1.blocks.part res.2.2.1 [])
      (moveNode e s moved node (q.deleteNode node)) := by
  obtain ⟨dst, hdst⟩ := Option.ne_none_iff_exists'.1 fun h => hq _ hn (List.not_mem_nil _) (hl.target _ _ h)
  obtain ⟨⟨success, s'⟩, hmv⟩ := relaxedMoveNode_current (c := e.toCtx) s node dst
  unfold moveNode
  rw [hdst]
  refine NoAssert.bind (Q := (· = (success, s'))) (by rw [hmv]; rfl) fun _ h => ?_
  subst h
  cases success with
  | false =>
    intro p hp _
    rw [relaxedMoveNode_false hmv]
    exact hq p (PQ.mem_deleteNode.1 hp).1 (List.not_mem_nil _)
  | true =>
    exact QueueLive.updateAll _ (by simpa using QueueLive.move hl hm hq (relaxedMoveNode_keepsOff hmv))

variable (e) in
/-- The invariant of the forward loop of the local search. -/
def SearchInv (r : SearchState β) : Prop := QueueLive e r.sh.blocks.part r.queue []

theorem searchLoop_noAssert (hl : ComputeGainLaws e) (hm : e.G.Mutual) :
    ∀ (k mv : Nat) (r : SearchState β), SearchInv e r → NoAssert (fun _ => True) (searchLoop e k mv r)
  | 0, _, _, _ => trivial
  | k + 1, mv, r, hr => by
    unfold searchLoop
    by_cases he : r.queue.isEmpty = true
    · rw [if_pos he]; trivial
    rw [if_neg he]
    by_cases hst : r.oracle.stop.1 = true
    · simp only [hst, if_true]; trivial
    simp only [hst, Bool.false_eq_true, if_false]
    obtain ⟨hmem, hq⟩ := PQ.deleteMax_entry (Bool.not_eq_true _ ▸ he) r.oracle.stop.2.pick.1
    rw [hq]
    refine (moveNode_noAssert hl hm hr hmem _).bind fun ⟨success, _, _, _⟩ h => ?_
    cases success <;> exact searchLoop_noAssert hl hm k _ _ h

/-- `local_search_from_one_node` ends in no failed assertion; when it returns,
it leaves the labels as it found them. -/
theorem localSearchFromOneNode_noAssert (hl : ComputeGainLaws e) (hm : e.G.Mutual) (startNode maxSwaps : Nat)
    (ct : Bool) (c : Commit β) (o : Oracle) :
    NoAssert (fun res => res.2.1.sh.blocks = c.sh.blocks)
      (localSearchFromOneNode e startNode maxSwaps ct c o) := by
  refine NoAssert.intro ?_ fun _ h => localSearchFromOneNode_restores h
  unfold localSearchFromOneNode
  dsimp only
  by_cases hg : (e.computeGain c.sh.blocks.part startNode).extDegree = 0
  · rw [if_pos hg]; exact Except.noConfusion
  rw [if_neg hg]
  refine (NoAssert.bind (Q := fun rm => MovedAll e.toCtx c.sh rm.1.moves.reverse rm.1.sh) (R := fun _ => True)
    (NoAssert.intro (searchLoop_noAssert hl hm _ _ _ fun p hp _ => ?_).ne
      fun _ h => searchLoop_run h (.nil c.sh))
    fun ⟨r, mv⟩ hrun => ?_).ne
  · obtain rfl : p = _ := List.mem_singleton.1 hp
    exact hg
  obtain ⟨s, sm, hrb, -⟩ := rollBackwards_restores (r.minCutIndex + 1).toNat hrun rfl
  dsimp only
  rw [hrb]
  dsimp only [bind, Except.bind]
  split
  · trivial
  · exact Fault.noConfusion

/-! ## The commit of one thread -/

variable {cfg : ApplyConfig}

theorem addNotMoved_noAssert (log : List LogEntry) :
    ∀ (k i : Nat) (nm : List Nat), NoAssert (fun _ => True) (addNotMoved log k i nm)
  | 0, _, _ => trivial
  | k + 1, i, _ => (entryAt_noAssert log i).bind fun _ _ => addNotMoved_noAssert log k (i + 1) _

/-- The policy after a conflict: the unroll finds the entries
`best_cut_index + 1`, ..., `index - 1` moved, so it returns; the policy
returns too, and everything it changes is a node of the entries from
`best_cut_index + 1` up to `index` or `next_index`. -/
theorem applyMoveStrategyForConflict_noAssert (hl : ComputeGainLaws e) (hm : e.G.Mutual) {td : ThreadLog}
    {ct : Bool} {st : ApplyState β} {bestCutIndex : Int} {index : Nat} {minCutIndex nextIndex : Int}
    (hfi : (bestCutIndex + 1).toNat ≤ index) (hlen : index ≤ td.log.length)
    (hmv : ∃ s0, MovedAll e.toCtx s0 (((td.log.drop (bestCutIndex + 1).toNat).take
      (index - (bestCutIndex + 1).toNat)).map (·.toMove)) st.c.sh) :
    NoAssert (fun res => KeepsOff (nodesIn td.log (bestCutIndex + 1).toNat (max index nextIndex.toNat))
      st.c.sh res.2.c.sh)
      (applyMoveStrategyForConflict e cfg td ct st bestCutIndex index minCutIndex nextIndex) := by
  obtain ⟨s0, hmv⟩ := hmv
  obtain ⟨s, mn', hu, -, -⟩ := unrollRelaxedMoves_restores st.c.movedNodes st.cutImprovement (by omega) hmv rfl
  have hku : KeepsOff (nodesIn td.log (bestCutIndex + 1).toNat (max index nextIndex.toNat)) st.c.sh s :=
    (unrollRelaxedMoves_keepsOff hu).mono fun v hv => nodesIn_mono le_rfl (by omega) hv
  unfold applyMoveStrategyForConflict
  dsimp only
  rw [hu]
  refine (addNotMoved_noAssert _ _ _ _).bind fun _ _ => ?_
  dsimp only
  split
  · refine (entryAt_noAssert _ _).bind fun le _ => ?_
    exact (localSearchFromOneNode_noAssert hl hm _ _ _ _ _).bind fun res h => hku.trans (.of_blocks h)
  · exact (gainRecalculation_noAssert _ _ _ _ _ _).bind fun res h =>
      hku.trans (h.mono fun v hv => nodesIn_mono le_rfl (le_max_right _ _) hv)
  · exact (entryAt_noAssert _ _).bind fun _ _ => hku
  · exact hku

theorem conflictExit_noAssert (hl : ComputeGainLaws e) (hm : e.G.Mutual) {td : ThreadLog}
    {ct : Bool} {st : ApplyState β} {bestCutIndex : Int} {index : Nat} {minCutIndex nextIndex : Int}
    (hfi : (bestCutIndex + 1).toNat ≤ index) (hlen : index ≤ td.log.length)
    (hmv : ∃ s0, MovedAll e.toCtx s0 (((td.log.drop (bestCutIndex + 1).toNat).take
      (index - (bestCutIndex + 1).toNat)).map (·.toMove)) st.c.sh) :
    NoAssert (fun st' => KeepsOff (nodesIn td.log (bestCutIndex + 1).toNat (max index nextIndex.toNat))
      st.c.sh st'.c.sh)
      (conflictExit e cfg td ct st bestCutIndex index minCutIndex nextIndex) :=
  (applyMoveStrategyForConflict_noAssert hl hm hfi hlen hmv).bind fun _ h => h

/-- The inner loop over one segment `lo`, ..., `next_index - 1`, whose entries
are of distinct nodes: the entries from `best_cut_index + 1` to `index - 1`
were moved one after the other, and the entries still ahead are in their
from-blocks. Then every `relaxed_move_node` of the loop finds its node there,
and whatever the loop changes is a node of the segment. -/
theorem applyLoop_noAssert (hl : ComputeGainLaws e) (hm : e.G.Mutual) {td : ThreadLog} {ct : Bool}
    {minCutIndex nextIndex : Int} (lo : Nat)
    (hinj : ∀ p q lp lq, lo ≤ p → p < nextIndex.toNat → lo ≤ q → q < nextIndex.toNat →
      td.log[p]? = some lp → td.log[q]? = some lq → lp.node = lq.node → p = q) :
    ∀ (k index : Nat) (bestCutIndex total best : Int) (st : ApplyState β),
      index + k ≤ nextIndex.toNat → (lo : Int) ≤ bestCutIndex + 1 → bestCutIndex + 1 ≤ index →
      (∃ s0, MovedAll e.toCtx s0 (((td.log.drop (bestCutIndex + 1).toNat).take
        (index - (bestCutIndex + 1).toNat)).map (·.toMove)) st.c.sh) →
      (∀ p le, index ≤ p → p < nextIndex.toNat → td.log[p]? = some le →
        st.c.sh.blocks.part le.node = le.fromPart) →
      NoAssert (fun st' => KeepsOff (nodesIn td.log lo nextIndex.toNat) st.c.sh st'.c.sh)
        (applyLoop e cfg td ct minCutIndex nextIndex k index bestCutIndex total best st)
  | 0, _, _, _, _, st, _, _, _, _, _ => KeepsOff.refl _ _
  | k + 1, index, bestCutIndex, total, best, st, hk, hlo, hbi, hmv, hlab => by
    have hconf : ∀ st1 : ApplyState β, st1.c.sh = st.c.sh → index < td.log.length →
        NoAssert (fun st' => KeepsOff (nodesIn td.log lo nextIndex.toNat) st.c.sh st'.c.sh)
          (conflictExit e cfg td ct st1 bestCutIndex index minCutIndex nextIndex) := fun st1 h1 hlen =>
      (conflictExit_noAssert hl hm (by omega) hlen.le (h1 ▸ hmv)).mono fun st' h =>
        h1 ▸ h.mono fun v hv => nodesIn_mono (by omega) (by omega) hv
    unfold applyLoop
    refine (entryAt_noAssert _ _).bind fun le hle => ?_
    have hlen : index < td.log.length := (List.getElem?_eq_some_iff.1 hle).1
    dsimp only
    by_cases hmo : isMoved st.c.movedNodes le.node td.id = true
    · rw [if_pos hmo]; exact hconf st rfl hlen
    rw [if_neg hmo]
    by_cases hc : (neighbourConflict st.c.sh.blocks.part st.notMoved td.id le.fromPart le.toPart
        ((e.G.adj le.node).map (·.target)) st.c.movedNodes).1 = true
    · rw [if_pos hc]; exact hconf _ rfl hlen
    rw [if_neg hc]
    obtain ⟨⟨success, sh⟩, hmv'⟩ := relaxedMoveNode_current (c := e.toCtx) st.c.sh le.node le.toPart
    rw [hlab index le le_rfl (by omega) hle] at hmv'
    refine NoAssert.bind (Q := (· = (success, sh))) (by rw [hmv']; rfl) fun r hr => ?_
    subst hr
    have hk1 : KeepsOff (· = le.node) st.c.sh sh := relaxedMoveNode_keepsOff hmv'
    cases success with
    | false => exact hconf _ (relaxedMoveNode_false hmv') hlen
    | true =>
      have hrec : ∀ (b : Bool) (total' best' : Int) (st' : ApplyState β), st'.c.sh = sh →
          NoAssert (fun st'' => KeepsOff (nodesIn td.log lo nextIndex.toNat) sh st''.c.sh)
            (applyLoop e cfg td ct minCutIndex nextIndex k (index + 1)
              (if b then (index : Int) else bestCutIndex) total' best' st') := by
        intro b total' best' st' hst
        subst hst
        refine applyLoop_noAssert hl hm lo hinj k (index + 1) _ _ _ st' (by omega) (by split <;> omega)
          (by split <;> omega) ?_ fun p le' hp1 hp2 hle' => ?_
        · cases b with
          | false =>
            obtain ⟨s0, hmv⟩ := hmv
            refine ⟨s0, ?_⟩
            simp only [Bool.false_eq_true, if_false]
            rw [take_drop_succ_eq (by omega) hle, List.map_append]
            exact hmv.snoc hmv'
          | true =>
            refine ⟨st'.c.sh, ?_⟩
            simp only [if_true, show ((index : Int) + 1).toNat = index + 1 by omega, Nat.sub_self,
              List.take_zero, List.map_nil]
            exact .nil _
        · rw [hk1 _ fun h => ?_]
          · exact hlab p le' (by omega) hp2 hle'
          · have := hinj p index le' le (by omega) hp2 (by omega) (by omega) hle' hle h
            omega
      simp only [if_true]
      exact (hrec _ _ _ _ rfl).mono fun st'' h =>
        (hk1.mono fun v hv => ⟨index, le, by omega, by omega, hle, hv.symm⟩).trans h

/-- The outer loop: when the replayed positions have distinct nodes, each in
its from-block, the commit of the thread ends in no failed assertion and
changes only nodes of its replayed entries. -/
theorem applySegments_noAssert (hl : ComputeGainLaws e) (hm : e.G.Mutual) {td : ThreadLog} {ct : Bool} :
    ∀ (mcis : List (Int × Int)) (index : Nat) (st : ApplyState β), SegsShape index mcis →
      (∀ p q lp lq, InSegment index mcis p → InSegment index mcis q → td.log[p]? = some lp →
        td.log[q]? = some lq → lp.node = lq.node → p = q) →
      (∀ p le, InSegment index mcis p → td.log[p]? = some le → st.c.sh.blocks.part le.node = le.fromPart) →
      NoAssert (fun st' => KeepsOff (segNodes td.log index mcis) st.c.sh st'.c.sh)
        (applySegments e cfg td ct index mcis st)
  | [], index, st, _, _, _ => by
    unfold applySegments
    split
    · exact Fault.noConfusion
    · exact KeepsOff.refl _ _
  | (mci, next) :: rest, index, st, ⟨hin, hmn, hs⟩, hinj, hlab => by
    have hrest : ∀ v, segNodes td.log (next + 1).toNat rest v →
        segNodes td.log index ((mci, next) :: rest) v :=
      fun v ⟨p, le, hp, hle, hv⟩ => ⟨p, le, .inr hp, hle, hv⟩
    unfold applySegments
    by_cases hi : index < td.log.length
    swap
    · rw [if_neg hi]; exact KeepsOff.refl _ _
    rw [if_pos hi]
    dsimp only
    split
    · exact (applySegments_noAssert hl hm rest _ st hs (fun p q lp lq hp hq => hinj p q lp lq (.inr hp) (.inr hq))
        fun p le hp => hlab p le (.inr hp)).mono fun st' h => h.mono hrest
    rename_i hmci
    have hseg : ∀ p, index ≤ p → p < next.toNat → InSegment index ((mci, next) :: rest) p :=
      fun p h1 h2 => .inl ⟨hmci, h1, by omega⟩
    refine (applyLoop_noAssert hl hm index
      (fun p q lp lq hp1 hp2 hq1 hq2 => hinj p q lp lq (hseg p hp1 hp2) (hseg q hq1 hq2))
      _ index _ 0 0 st (by omega) (by omega) (by omega) ⟨st.c.sh, ?_⟩
      fun p le hp1 hp2 => hlab p le (hseg p hp1 hp2)).bind fun st1 h1 => ?_
    · simp only [sub_add_cancel, Int.toNat_ofNat, Nat.sub_self, List.take_zero, List.map_nil]
      exact .nil _
    refine (applySegments_noAssert hl hm rest _ st1 hs
      (fun p q lp lq hp hq => hinj p q lp lq (.inr hp) (.inr hq)) fun p le hp hle => ?_).mono
      fun st' h =>
        (h1.mono fun v ⟨p, le, hp1, hp2, hle, hv⟩ => ⟨p, le, hseg p hp1 hp2, hle, hv⟩).trans (h.mono hrest)
    have hout : ¬ nodesIn td.log index next.toNat le.node := fun ⟨q, lq, hq1, hq2, hlq, hv⟩ => by
      have := hinj p q le lq (.inr hp) (hseg q hq1 hq2) hle hlq hv.symm
      have := hs.le_of_inSegment hp
      omega
    rw [h1 _ hout]
    exact hlab p le (.inr hp) hle

/-- What the commit needs of a thread's log, on the labels `part` that the
exploration read: the segments have the shape the loops rely on, the replayed
entries are of distinct nodes, and each was logged from the node's block in
`part`. -/
structure ThreadLog.Replayable (part : Nat → Nat) (td : ThreadLog) : Prop where
  shape : SegsShape 0 td.minCutIndices
  inj : ∀ p q lp lq, InSegment 0 td.minCutIndices p → InSegment 0 td.minCutIndices q →
    td.log[p]? = some lp → td.log[q]? = some lq → lp.node = lq.node → p = q
  fromPart : ∀ p le, InSegment 0 td.minCutIndices p → td.log[p]? = some le → le.fromPart = part le.node

/-- Every thread's log is replayable on the labels `part`. -/
def AllReplayable (part : Nat → Nat) (tds : List ThreadLog) : Prop :=
  ∀ (j : Nat) (td : ThreadLog), tds[j]? = some td → td.Replayable part

/-- No two threads replay a common node. -/
def ReplaysDisjoint (tds : List ThreadLog) : Prop :=
  ∀ (i j : Nat) (ti tj : ThreadLog), i ≠ j → tds[i]? = some ti → tds[j]? = some tj →
    ∀ v, ti.Replays v → ¬ tj.Replays v

/-- A thread's commit, started on labels that agree with `part` on the nodes it
replays, ends in no failed assertion and changes only those nodes. -/
theorem applyMovesThread_noAssert (hl : ComputeGainLaws e) (hm : e.G.Mutual) {part : Nat → Nat}
    {td : ThreadLog} (hr : td.Replayable part) (ct : Bool) {c : Commit β}
    (hc : ∀ v, td.Replays v → c.sh.blocks.part v = part v) (o : Oracle) :
    NoAssert (fun res => KeepsOff td.Replays c.sh res.2.1.sh) (applyMovesThread e cfg td ct c o) :=
  (applySegments_noAssert hl hm _ 0 _ hr.shape hr.inj fun p le hp hle => by
    rw [hc _ ⟨p, le, hp, hle, rfl⟩, hr.fromPart p le hp hle]).bind fun _ h => h

/-- The coordinator's loop over `finished_threads`: every thread not yet
committed still finds the nodes it replays as the exploration read them. -/
theorem applyFinished_noAssert (hl : ComputeGainLaws e) (hm : e.G.Mutual) {part : Nat → Nat}
    {tds : List ThreadLog} (hr : AllReplayable part tds) (hdisj : ReplaysDisjoint tds) (rnd : Nat → Oracle)
    (ct : Bool) (futures : Nat → Bool) :
    ∀ (ids done : List Nat) (k : Nat) (acc : Int × Bool) (c : Commit β), 0 ∉ ids →
      (∀ (j : Nat) (tj : ThreadLog), j ≠ 0 → j ∉ done → tds[j]? = some tj → ∀ v, tj.Replays v →
        c.sh.blocks.part v = part v) →
      NoAssert (fun _ => True) (applyFinished e cfg tds rnd ct futures done ids k acc c)
  | ids, _, 0, _, _, _, _ => by cases ids <;> trivial
  | [], _, _ + 1, _, _, _, _ => Fault.noConfusion
  | id :: ids, done, k + 1, (gain, more), c, h0, hc => by
    have hid : id ≠ 0 := fun h => h0 (h ▸ List.mem_cons_self id ids)
    unfold applyFinished
    rw [if_neg hid]
    split
    · exact Fault.noConfusion
    rename_i hdone
    refine (entryAt_noAssert _ _).bind fun td htd => ?_
    refine (applyMovesThread_noAssert hl hm (hr id td htd) ct (hc id td hid hdone htd) _).bind
      fun res hres => ?_
    refine applyFinished_noAssert hl hm hr hdisj rnd ct futures ids _ k _ _
      (fun h => h0 (List.mem_cons_of_mem id h)) fun j tj hj hjd htj v hv => ?_
    rw [hres v (hdisj j id tj td (fun h => hjd (h ▸ List.mem_cons_self j done)) htj htd v hv)]
    exact hc j tj hj (fun h => hjd (List.mem_cons_of_mem id h)) htj v hv

/-- `apply_moves` over the logs of all threads, in any finishing order of the
worker threads: when every log is replayable on the labels the commit starts
from and no two threads replay a common node, no assertion fails. -/
theorem applyMoves_noAssert (hl : ComputeGainLaws e) (hm : e.G.Mutual) {tds : List ThreadLog}
    {sh : Shared β} (hr : AllReplayable sh.blocks.part tds) (hdisj : ReplaysDisjoint tds) (rnd : Nat → Oracle)
    (ct : Bool) {finishOrder : List Nat} (h0 : 0 ∉ finishOrder) (futures touched : Nat → Bool)
    (reactivated : List Nat) :
    applyMoves e cfg tds rnd ct finishOrder futures sh touched reactivated ≠ .error .assertion := by
  refine NoAssert.ne (Q := fun _ => True) ?_
  unfold applyMoves
  refine (entryAt_noAssert _ _).bind fun td0 h0' => ?_
  refine (applyMovesThread_noAssert hl hm (hr 0 td0 h0') ct (fun _ _ => rfl) _).bind fun res hres => ?_
  dsimp only
  split
  · refine applyFinished_noAssert hl hm hr hdisj rnd ct futures _ [] _ _ _ h0 fun j tj hj _ htj v hv => ?_
    exact hres v (hdisj j 0 tj td0 hj htj h0' v hv)
  · trivial

end Kahip
