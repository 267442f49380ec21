import Kahip.Recalc

/-!
# The move history of the commit phase

Every write of the commit phase to shared state is a `relaxed_move_node`
call or a `relaxed_move_node_back` call, and every roll-back undoes the
newest move still in force: the commit keeps, in effect, a stack of moves.
`CommitStep` is that machine. Its one invariant (`InForce`) says that the
labels and counters are those the moves in force produce from the start
state, applied oldest first; the balance guarantees and the exactness of
the counters follow from it, over every run.

The routines of `Unroll` are runs of this machine: a successful batch of
moves pushes its moves, and each roll-back pops what it undoes. So are
`gain_recalculation` and the gain-recomputing `apply_moves`, here, and
`local_search_from_one_node` and the per-thread `apply_moves`, in the modules
that define them.
-/

namespace Kahip

variable {β : Type} (c : Ctx β)

/-- One write of the commit phase, with the moves in force, newest first: a
`relaxed_move_node` call, whose move is pushed when it succeeds, or the
roll-back of the newest move in force, with whatever target block the
caller passes (the vector overload passes the node's current block). -/
inductive CommitStep : Shared β × List Move → Shared β × List Move → Prop
  | moved {s s' : Shared β} {h : List Move} {m : Move} :
      relaxedMoveNode c s m.node m.fromPart m.toPart = .ok (true, s') →
      CommitStep (s, h) (s', m :: h)
  | refused {s s' : Shared β} {h : List Move} {node src dst : Nat} :
      relaxedMoveNode c s node src dst = .ok (false, s') → CommitStep (s, h) (s', h)
  | back {s s' : Shared β} {h : List Move} {m : Move} {dst : Nat} :
      relaxedMoveNodeBack c s m.node m.fromPart dst = .ok s' → CommitStep (s, m :: h) (s', h)

/-- The labels and counters are those the moves in force produce from `s0`. -/
def InForce (s0 : Shared β) (x : Shared β × List Move) : Prop :=
  ∃ sf, MovedAll c s0 x.2.reverse sf ∧ x.1.blocks = sf.blocks

/-- What the commit phase promises about the blocks of `s0` in `s`: a block
with a node keeps one, and a block below the bound stays below it. -/
def KeepsBalance (s0 s : Shared β) : Prop :=
  ∀ b, (1 ≤ s0.blocks.blockNoNodes b → 1 ≤ s.blocks.blockNoNodes b) ∧
    (s0.blocks.blockWeight b < c.upperBound → s.blocks.blockWeight b < c.upperBound)

variable {c}

/-- `relaxed_move_node` reads and writes only labels and counters besides the
boundary: on equal labels and counters it decides alike and writes alike. -/
theorem relaxedMoveNode_congr {s t s' : Shared β} {node src dst : Nat} {b : Bool}
    (hst : s.blocks = t.blocks) (h : relaxedMoveNode c s node src dst = .ok (b, s')) :
    ∃ t', relaxedMoveNode c t node src dst = .ok (b, t') ∧ t'.blocks = s'.blocks := by
  simp only [relaxedMoveNode, ← hst] at h ⊢
  split_ifs at h ⊢ <;> cases h <;> first | exact ⟨_, rfl, rfl⟩ | exact ⟨_, rfl, hst.symm⟩

theorem CommitStep.inForce {s0 : Shared β} {x y : Shared β × List Move}
    (hs : CommitStep c x y) (hi : InForce c s0 x) : InForce c s0 y := by
  obtain ⟨sf, hrun, hb⟩ := hi
  cases hs with
  | moved hm =>
    obtain ⟨t', ht, htb⟩ := relaxedMoveNode_congr hb hm
    exact ⟨t', by rw [List.reverse_cons]; exact hrun.snoc ht, htb.symm⟩
  | refused hm => exact ⟨sf, hrun, by rw [relaxedMoveNode_false hm]; exact hb⟩
  | back hback =>
    rw [List.reverse_cons] at hrun
    obtain ⟨sm, t', h1, hback', ht'⟩ := undo_last hrun hb
    have hd := (relaxedMoveNodeBack_ok hback).1
    rw [(relaxedMoveNodeBack_ok hback').1] at hd
    subst hd
    obtain rfl := Except.ok.inj (hback.symm.trans hback')
    exact ⟨sm, h1, ht'⟩

/-- Every reachable state has the labels and counters of its moves in force. -/
theorem inForce_of_reach {s0 : Shared β} {x : Shared β × List Move}
    (hr : Relation.ReflTransGen (CommitStep c) (s0, []) x) : InForce c s0 x := by
  induction hr with
  | refl => exact ⟨s0, .nil s0, rfl⟩
  | tail _ hs ih => exact hs.inForce ih

/-! ## Balance -/

theorem KeepsBalance.move {s0 s s' : Shared β} {m : Move} (hk : KeepsBalance c s0 s)
    (hm : relaxedMoveNode c s m.node m.fromPart m.toPart = .ok (true, s')) :
    KeepsBalance c s0 s' := by
  obtain ⟨-, hw, hn, hb⟩ := relaxedMoveNode_true hm
  intro b
  obtain ⟨k1, k2⟩ := hk b
  have hn' := (hk m.fromPart).1
  rw [hb, Blocks.move_blockNoNodes, Blocks.move_blockWeight]
  constructor <;> intro h0 <;> split_ifs <;> subst_vars <;> omega

theorem KeepsBalance.run {s0 s s' : Shared β} {ms : List Move} (hk : KeepsBalance c s0 s)
    (h : MovedAll c s ms s') : KeepsBalance c s0 s' := by
  induction h with
  | nil => exact hk
  | cons hm _ ih => exact ih (hk.move hm)

/-! ## Exact counters -/

theorem MovedAll.exact {s s' : Shared β} {ms : List Move} (h : MovedAll c s ms s') :
    s.blocks.Exact c.G → (∀ m ∈ ms, m.node < c.G.n) → s'.blocks.Exact c.G := by
  induction h with
  | nil => exact fun he _ => he
  | cons hm _ ih =>
    exact fun he hv => ih (relaxedMoveNode_exact (hv _ (.head _)) he hm) fun m hm => hv m (.tail _ hm)

/-- Exact counters stay exact in every reachable state whose moves in force
are of nodes of the graph. -/
theorem exact_of_reach {s0 : Shared β} {x : Shared β × List Move}
    (hr : Relation.ReflTransGen (CommitStep c) (s0, []) x) (he : s0.blocks.Exact c.G)
    (hv : ∀ m ∈ x.2, m.node < c.G.n) : x.1.blocks.Exact c.G := by
  obtain ⟨sf, hrun, hb⟩ := inForce_of_reach hr
  rw [hb]
  exact hrun.exact he fun m hm => hv m (List.mem_reverse.1 hm)

/-! ## Where the commit reads the log -/

/-- The nodes of the log entries at positions `lo`, ..., `hi - 1`. -/
def nodesIn (log : List LogEntry) (lo hi : Nat) (v : Nat) : Prop :=
  ∃ p le, lo ≤ p ∧ p < hi ∧ log[p]? = some le ∧ le.node = v

theorem nodesIn_mono {log : List LogEntry} {lo hi lo' hi' : Nat} (hlo : lo' ≤ lo) (hhi : hi ≤ hi') {v : Nat} :
    nodesIn log lo hi v → nodesIn log lo' hi' v
  | ⟨p, le, h1, h2, h3, h4⟩ => ⟨p, le, by omega, by omega, h3, h4⟩

/-- Position `p` of a log lies in a segment the commit replays. The segment of
the pair `(min_cut_index, next_index)` runs from where the one before it
ended, `index`, to `next_index - 1`; it is replayed unless `min_cut_index` is
`-1`. -/
def InSegment : Nat → List (Int × Int) → Nat → Prop
  | _, [], _ => False
  | index, (mci, next) :: rest, p =>
    (mci ≠ -1 ∧ index ≤ p ∧ (p : Int) < next) ∨ InSegment (next + 1).toNat rest p

/-- The shape of `min_cut_indices` the commit relies on: each segment ends at
or after where it starts, and a replayed segment's `min_cut_index` lies
before its end. -/
def SegsShape : Nat → List (Int × Int) → Prop
  | _, [] => True
  | index, (mci, next) :: rest =>
    (index : Int) ≤ next ∧ (mci ≠ -1 → mci < next) ∧ SegsShape (next + 1).toNat rest

theorem SegsShape.le_of_inSegment : ∀ {mcis : List (Int × Int)} {index p : Nat},
    SegsShape index mcis → InSegment index mcis p → index ≤ p
  | [], _, _, _, h => h.elim
  | (_, _) :: _, _, _, ⟨hle, _, hs⟩, h => h.elim (fun h => h.2.1) fun h => by
    have := SegsShape.le_of_inSegment hs h
    omega

/-- The nodes of the entries of the segments from `index` on. -/
def segNodes (log : List LogEntry) (index : Nat) (mcis : List (Int × Int)) (v : Nat) : Prop :=
  ∃ p le, InSegment index mcis p ∧ log[p]? = some le ∧ le.node = v

/-- The nodes of the log entries a thread's commit replays. -/
def ThreadLog.Replays (td : ThreadLog) (v : Nat) : Prop := segNodes td.log 0 td.minCutIndices v

theorem segNodes_head {log : List LogEntry} {index : Nat} {mci next : Int} {rest : List (Int × Int)}
    (hm : mci ≠ -1) {v : Nat} : nodesIn log index next.toNat v → segNodes log index ((mci, next) :: rest) v
  | ⟨p, le, h1, h2, h3, h4⟩ => ⟨p, le, .inl ⟨hm, h1, by omega⟩, h3, h4⟩

theorem segNodes_tail {log : List LogEntry} {index : Nat} {mci next : Int} {rest : List (Int × Int)}
    {v : Nat} : segNodes log (next + 1).toNat rest v → segNodes log index ((mci, next) :: rest) v
  | ⟨p, le, hp, h3, h4⟩ => ⟨p, le, .inr hp, h3, h4⟩

/-! ## Exact counters through the commit routines

Each routine writes only through the two primitives, so each keeps exact
counters exact as long as the nodes it moves are nodes of the graph: those of
the log entries it reads, or those in the vectors it undoes. A log also holds
the sentinel entry of every round, which no routine reads. -/

theorem unrollRelaxedMoves_exact {log : List LogEntry} {start : Nat} :
    ∀ {k : Nat} {t s : Shared β} {mn mn' : Nat → Option (Nat × Nat)} {cut cut' : Int},
      (∀ v, nodesIn log start (start + k) v → v < c.G.n) →
      unrollRelaxedMoves c log start k t mn cut = .ok (s, mn', cut') →
      t.blocks.Exact c.G → s.blocks.Exact c.G
  | 0, t, s, mn, mn', cut, cut', _, hr => by
    simp only [unrollRelaxedMoves, Except.ok.injEq, Prod.mk.injEq] at hr
    obtain ⟨rfl, -⟩ := hr
    exact id
  | k + 1, t, s, mn, mn', cut, cut', hv, hr => by
    obtain ⟨le, he, hr⟩ := bind_ok_iff.1 hr
    obtain ⟨t', hb, hr⟩ := bind_ok_iff.1 hr
    exact fun hx => unrollRelaxedMoves_exact (fun v h => hv v (nodesIn_mono le_rfl (by omega) h)) hr
      (relaxedMoveNodeBack_exact (hv _ ⟨start + k, le, by omega, by omega, entryAt_ok he, rfl⟩) hx hb)

theorem unrollRelaxedMovesVec_exact :
    ∀ {as : List Applied} {t s : Shared β} {cut cut' : Int}, (∀ a ∈ as, a.node < c.G.n) →
      unrollRelaxedMovesVec c as t cut = .ok (s, cut') → t.blocks.Exact c.G → s.blocks.Exact c.G
  | [], t, s, cut, cut', _, hr => by
    simp only [unrollRelaxedMovesVec, Except.ok.injEq, Prod.mk.injEq] at hr
    obtain ⟨rfl, -⟩ := hr
    exact id
  | a :: as, t, s, cut, cut', hv, hr => by
    obtain ⟨t', hb, hr⟩ := bind_ok_iff.1 hr
    exact fun hx => unrollRelaxedMovesVec_exact (fun a' ha => hv a' (.tail _ ha)) hr
      (relaxedMoveNodeBack_exact (hv a (.head _)) hx hb)

theorem rollBackwards_exact {keep : Nat} :
    ∀ {ms kept : List Move} {t s : Shared β}, (∀ m ∈ ms, m.node < c.G.n) →
      rollBackwards c keep ms t = .ok (s, kept) → t.blocks.Exact c.G → s.blocks.Exact c.G
  | [], kept, t, s, _, hr => by
    simp only [rollBackwards, Except.ok.injEq, Prod.mk.injEq] at hr
    obtain ⟨rfl, rfl⟩ := hr
    exact id
  | m :: ms, kept, t, s, hv, hr => by
    simp only [rollBackwards] at hr
    split_ifs at hr
    · obtain ⟨t', hb, hr⟩ := bind_ok_iff.1 hr
      exact fun hx => rollBackwards_exact (fun m' hm => hv m' (.tail _ hm)) hr
        (relaxedMoveNodeBack_exact (hv m (.head _)) hx hb)
    · cases hr
      exact id

/-- The entry a loop reads first is in its window, and the rest of the window
is the window of the rest of the loop. -/
theorem nodesIn_first {log : List LogEntry} {index k n : Nat} {le : LogEntry}
    (hv : ∀ v, nodesIn log index (index + (k + 1)) v → v < n) (he : entryAt log index = .ok le) :
    le.node < n ∧ ∀ v, nodesIn log (index + 1) (index + 1 + k) v → v < n :=
  ⟨hv _ ⟨index, le, le_rfl, by omega, entryAt_ok he, rfl⟩,
    fun v h => hv v (nodesIn_mono (by omega) (by omega) h)⟩

theorem recalcLoop_keeps_exact {e : Env β} {log : List LogEntry} :
    ∀ {k index : Nat} {r r' : RecalcState β}, (∀ v, nodesIn log index (index + k) v → v < e.G.n) →
      recalcLoop e log k index r = .ok r' → r.sh.blocks.Exact e.G → (∀ m ∈ r.moves, m.node < e.G.n) →
      r'.sh.blocks.Exact e.G ∧ ∀ m ∈ r'.moves, m.node < e.G.n
  | 0, _, r, r', _, h => by cases h; exact fun hx hm => ⟨hx, hm⟩
  | k + 1, index, r, r', hv, h => by
    obtain ⟨le, he, h⟩ := bind_ok_iff.1 h
    obtain ⟨hn, hv⟩ := nodesIn_first hv he
    simp only at h
    split at h
    · exact recalcLoop_keeps_exact hv h
    · obtain ⟨⟨success, sh⟩, hm, h⟩ := bind_ok_iff.1 h
      cases success with
      | false =>
        rw [relaxedMoveNode_false hm] at h
        exact recalcLoop_keeps_exact hv h
      | true =>
        exact fun hx hms => recalcLoop_keeps_exact hv h (relaxedMoveNode_exact hn hx hm)
          (List.forall_mem_cons.2 ⟨hn, hms⟩)

theorem gainRecalculation_keeps_exact {e : Env β} {log : List LogEntry} {start stop : Nat}
    (hv : ∀ v, nodesIn log start stop v → v < e.G.n) {ct : Bool} {c c' : Commit β}
    {o o' : Oracle} {res : Int × Int}
    (h : gainRecalculation e log start stop ct c o = .ok (res, c', o'))
    (hx : c.sh.blocks.Exact e.G) : c'.sh.blocks.Exact e.G := by
  obtain ⟨r, hr, h⟩ := bind_ok_iff.1 h
  obtain ⟨⟨sh, kept⟩, hrb, h⟩ := bind_ok_iff.1 h
  cases h
  obtain ⟨hx', hms⟩ := recalcLoop_keeps_exact (fun v ⟨p, le, h1, h2, h3, h4⟩ => hv v ⟨p, le, h1, by omega, h3, h4⟩)
    hr hx (by simp [recalcStart])
  exact rollBackwards_exact hms hrb hx'

theorem mem_ite_nil_cons {p : Prop} [Decidable p] {α : Type} {a x : α} {l : List α}
    (h : a ∈ if p then [] else x :: l) : a = x ∨ a ∈ l := by
  split_ifs at h <;> simp_all

theorem recomputeLoop_keeps_exact {e : Env β} {log : List LogEntry} {ct : Bool} :
    ∀ {k index : Nat} {r r' : RecomputeState β}, (∀ v, nodesIn log index (index + k) v → v < e.G.n) →
      recomputeLoop e log ct k index r = .ok r' →
      r.sh.blocks.Exact e.G → (∀ a ∈ r.pending, a.node < e.G.n) →
      r'.sh.blocks.Exact e.G ∧ ∀ a ∈ r'.pending, a.node < e.G.n
  | 0, _, r, r', _, h => by cases h; exact fun hx hm => ⟨hx, hm⟩
  | k + 1, index, r, r', hv, h => by
    obtain ⟨le, he, h⟩ := bind_ok_iff.1 h
    obtain ⟨hn, hv⟩ := nodesIn_first hv he
    rcases hga : e.computeGainActual r.sh.blocks.part le.node le.toPart with ⟨g, target⟩
    simp only [hga] at h
    cases target with
    | none =>
      obtain ⟨-, h⟩ | ⟨-, h⟩ := ite_eq_iff.1 h
      · exact fun hx hp => recomputeLoop_keeps_exact hv h hx hp
      · cases h
    | some dst =>
      obtain ⟨⟨success, sh⟩, hm, h⟩ := bind_ok_iff.1 h
      cases success with
      | false =>
        rw [relaxedMoveNode_false hm] at h
        simp only [Bool.false_eq_true, if_false] at h
        exact fun hx hp => recomputeLoop_keeps_exact hv h hx hp
      | true =>
        refine fun hx hps => recomputeLoop_keeps_exact hv h (relaxedMoveNode_exact hn hx hm)
          fun a ha => ?_
        obtain rfl | ha := mem_ite_nil_cons ha
        exacts [hn, hps a ha]

theorem recomputeSegments_keeps_exact {e : Env β} {log : List LogEntry} {ct : Bool} :
    ∀ {mcis : List (Int × Int)} {index : Nat} {r r' : RecomputeState β}, SegsShape index mcis →
      (∀ v, segNodes log index mcis v → v < e.G.n) →
      recomputeSegments e log ct index mcis r = .ok r' →
      r.sh.blocks.Exact e.G → r'.sh.blocks.Exact e.G
  | [], index, r, r', _, _, h => by
    rw [recomputeSegments] at h
    split_ifs at h
    cases h
    exact id
  | (mci, next) :: rest, index, r, r', ⟨hle, hmn, hs⟩, hv, h => by
    have hrest : ∀ v, segNodes log (next + 1).toNat rest v → v < e.G.n := fun v h => hv v (segNodes_tail h)
    rw [recomputeSegments] at h
    split_ifs at h with hlt hm
    · exact recomputeSegments_keeps_exact hs hrest h
    · obtain ⟨r1, h1, h⟩ := bind_ok_iff.1 h
      obtain ⟨⟨sh, ci⟩, hun, h⟩ := bind_ok_iff.1 h
      have hmn := hmn hm
      intro hx
      obtain ⟨hx1, hp⟩ := recomputeLoop_keeps_exact
        (fun v ⟨p, le, h1, h2, h3, h4⟩ => hv v (segNodes_head hm ⟨p, le, h1, by omega, h3, h4⟩)) h1 hx (by simp)
      exact recomputeSegments_keeps_exact hs hrest h (unrollRelaxedMovesVec_exact hp hun hx1)
    · cases h
      exact id

theorem applyMovesRecomputing_keeps_exact {e : Env β} {td : ThreadLog} (hs : SegsShape 0 td.minCutIndices)
    (hv : ∀ v, td.Replays v → v < e.G.n) {ct : Bool} {sh sh' : Shared β}
    {touched touched' : Nat → Bool} {o o' : Oracle} {g : Int}
    (h : applyMovesRecomputing e td ct sh touched o = .ok (g, sh', touched', o'))
    (hx : sh.blocks.Exact e.G) : sh'.blocks.Exact e.G := by
  obtain ⟨r, hr, h⟩ := bind_ok_iff.1 h
  cases h
  exact recomputeSegments_keeps_exact hs hv hr hx

/-- Every state the machine reaches from `s0` keeps the blocks of `s0`: by
the counters the code reads, and, when they start exact, by the labels. -/
theorem keepsBalance_of_reach {s0 s : Shared β} {h : List Move}
    (hr : Relation.ReflTransGen (CommitStep c) (s0, []) (s, h)) :
    KeepsBalance c s0 s ∧
      (s0.blocks.Exact c.G → (∀ m ∈ h, m.node < c.G.n) → ∀ b,
        (1 ≤ c.G.blockSizeOf s0.blocks.part b → 1 ≤ c.G.blockSizeOf s.blocks.part b) ∧
        (c.G.blockWeightOf s0.blocks.part b < c.upperBound →
          c.G.blockWeightOf s.blocks.part b < c.upperBound)) := by
  obtain ⟨sf, hrun, hb⟩ := inForce_of_reach hr
  have hk : KeepsBalance c s0 s := fun b => by
    rw [hb]; exact (KeepsBalance.run (fun _ => ⟨id, id⟩) hrun) b
  refine ⟨hk, fun he hv b => ?_⟩
  have he' := exact_of_reach hr he hv
  rw [← (he b).1, ← (he b).2, ← (he' b).1, ← (he' b).2]
  exact hk b

/-! ## The roll-backs are runs of the machine -/

theorem MovedAll.steps {s s' : Shared β} {ms : List Move} (hm : MovedAll c s ms s')
    (h : List Move) : Relation.ReflTransGen (CommitStep c) (s, h) (s', ms.reverse ++ h) := by
  induction hm generalizing h with
  | nil => exact .refl
  | cons hm _ ih =>
    rw [List.reverse_cons, List.append_assoc, List.singleton_append]
    exact .head (.moved hm) (ih _)

theorem rollBackwards_steps {keep : Nat} :
    ∀ {ms kept : List Move} {t s : Shared β}, rollBackwards c keep ms t = .ok (s, kept) →
      ∀ h, Relation.ReflTransGen (CommitStep c) (t, ms ++ h) (s, kept ++ h)
  | [], kept, t, s, hr, h => by
    simp only [rollBackwards, Except.ok.injEq, Prod.mk.injEq] at hr
    obtain ⟨rfl, rfl⟩ := hr
    exact .refl
  | m :: ms, kept, t, s, hr, h => by
    simp only [rollBackwards] at hr
    split_ifs at hr
    · obtain ⟨t', hb, hr⟩ := bind_ok_iff.1 hr
      exact .head (.back hb) (rollBackwards_steps hr h)
    · cases hr
      exact .refl

theorem unrollRelaxedMoves_steps {log : List LogEntry} {start : Nat} :
    ∀ {k : Nat} {t s : Shared β} {mn mn' : Nat → Option (Nat × Nat)} {cut cut' : Int},
      unrollRelaxedMoves c log start k t mn cut = .ok (s, mn', cut') → ∀ h,
        Relation.ReflTransGen (CommitStep c)
          (t, (((log.drop start).take k).map (·.toMove)).reverse ++ h) (s, h)
  | 0, t, s, mn, mn', cut, cut', hr, h => by
    simp only [unrollRelaxedMoves, Except.ok.injEq, Prod.mk.injEq] at hr
    obtain ⟨rfl, -⟩ := hr
    exact .refl
  | k + 1, t, s, mn, mn', cut, cut', hr, h => by
    obtain ⟨le, he, hr⟩ := bind_ok_iff.1 hr
    obtain ⟨t', hb, hr⟩ := bind_ok_iff.1 hr
    have hslice : (log.drop start).take (k + 1) = (log.drop start).take k ++ [le] := by
      rw [List.take_succ, List.getElem?_drop, entryAt_ok he]; rfl
    rw [hslice, List.map_append, List.reverse_append]
    exact .head (.back (m := le.toMove) hb) (unrollRelaxedMoves_steps hr h)

theorem unrollRelaxedMovesVec_steps :
    ∀ {as : List Applied} {ms : List Move} {t s : Shared β} {cut cut' : Int},
      as.map (fun a => (a.node, a.fromPart)) = ms.map (fun m => (m.node, m.fromPart)) →
      unrollRelaxedMovesVec c as t cut = .ok (s, cut') →
      ∀ h, Relation.ReflTransGen (CommitStep c) (t, ms ++ h) (s, h)
  | [], ms, t, s, cut, cut', hm, hr, h => by
    obtain rfl : ms = [] := List.map_eq_nil_iff.1 hm.symm
    simp only [unrollRelaxedMovesVec, Except.ok.injEq, Prod.mk.injEq] at hr
    obtain ⟨rfl, -⟩ := hr
    exact .refl
  | a :: as, [], _, _, _, _, hm, _, _ => by simp at hm
  | a :: as, m :: ms, t, s, cut, cut', hm, hr, h => by
    simp only [List.map_cons, List.cons.injEq, Prod.mk.injEq] at hm
    obtain ⟨⟨hn, hf⟩, hm⟩ := hm
    obtain ⟨t', hb, hr⟩ := bind_ok_iff.1 hr
    rw [hn, hf] at hb
    exact .head (.back hb) (unrollRelaxedMovesVec_steps hm hr h)

/-! ## The commit routines are runs of the machine

Each routine pushes the moves it makes and pops, newest first, those it
undoes; the moves in force before it stay below what it pushes. -/

theorem gainRecalculation_steps {e : Env β} {log : List LogEntry} {start stop : Nat} {ct : Bool}
    {cm cm' : Commit β} {o o' : Oracle} {res : Int × Int}
    (h : gainRecalculation e log start stop ct cm o = .ok (res, cm', o')) (H : List Move) :
    ∃ kept, Relation.ReflTransGen (CommitStep e.toCtx) (cm.sh, H) (cm'.sh, kept ++ H) := by
  obtain ⟨r, hr, h⟩ := bind_ok_iff.1 h
  obtain ⟨⟨sh, kept⟩, hrb, h⟩ := bind_ok_iff.1 h
  cases h
  obtain ⟨hrun, -⟩ := recalcLoop_inv (recalcInv_start cm.sh o) hr
  have h1 := hrun.steps H
  rw [List.reverse_reverse] at h1
  exact ⟨kept, h1.trans (rollBackwards_steps hrb H)⟩

theorem recomputeSegments_steps {e : Env β} {log : List LogEntry} {ct : Bool} :
    ∀ {mcis : List (Int × Int)} {index : Nat} {r r' : RecomputeState β} (H : List Move),
      recomputeSegments e log ct index mcis r = .ok r' →
      ∃ kept, Relation.ReflTransGen (CommitStep e.toCtx) (r.sh, H) (r'.sh, kept ++ H)
  | [], index, r, r', H, h => by
    rw [recomputeSegments] at h
    split_ifs at h
    cases h
    exact ⟨[], .refl⟩
  | (mci, next) :: rest, index, r, r', H, h => by
    rw [recomputeSegments] at h
    split_ifs at h with hlt hm
    · exact recomputeSegments_steps H h
    · obtain ⟨r1, h1, h⟩ := bind_ok_iff.1 h
      obtain ⟨⟨sh, ci⟩, hun, h⟩ := bind_ok_iff.1 h
      obtain ⟨done, j, -, -, -, -, -, hrun, hmap, -⟩ := recomputeLoop_inv (recomputeInv_start r) h1
      simp only [List.nil_append] at hrun hmap
      have hsplit : done.reverse = (done.drop j).reverse ++ (done.take j).reverse := by
        rw [← List.reverse_append, List.take_append_drop]
      have hmade := hrun.steps H
      rw [hsplit, List.append_assoc] at hmade
      obtain ⟨kept, hrest⟩ := recomputeSegments_steps ((done.take j).reverse ++ H) h
      refine ⟨kept ++ (done.take j).reverse, ?_⟩
      rw [List.append_assoc]
      exact hmade.trans ((unrollRelaxedMovesVec_steps hmap hun ((done.take j).reverse ++ H)).trans hrest)
    · cases h
      exact ⟨[], .refl⟩

theorem applyMovesRecomputing_steps {e : Env β} {td : ThreadLog} {ct : Bool} {sh sh' : Shared β}
    {touched touched' : Nat → Bool} {o o' : Oracle} {g : Int}
    (h : applyMovesRecomputing e td ct sh touched o = .ok (g, sh', touched', o')) (H : List Move) :
    ∃ kept, Relation.ReflTransGen (CommitStep e.toCtx) (sh, H) (sh', kept ++ H) := by
  obtain ⟨r, hr, h⟩ := bind_ok_iff.1 h
  cases h
  exact recomputeSegments_steps H hr

theorem applyMovesAll_steps {e : Env β} {tds : List ThreadLog} {rnd : Nat → Oracle} {ct : Bool}
    {numThreads : Nat} {sh sh' : Shared β} {touched touched' : Nat → Bool} {res : Int × Nat}
    (h : applyMovesAll e tds rnd ct numThreads sh touched = .ok (res, sh', touched')) (H : List Move) :
    ∃ kept, Relation.ReflTransGen (CommitStep e.toCtx) (sh, H) (sh', kept ++ H) := by
  have hall : ∀ (ids : List Nat) (acc acc' : Int × Shared β × (Nat → Bool)) (H : List Move),
      ids.foldlM (commitThread e tds rnd ct) acc = .ok acc' →
      ∃ kept, Relation.ReflTransGen (CommitStep e.toCtx) (acc.2.1, H) (acc'.2.1, kept ++ H) := by
    intro ids
    induction ids with
    | nil => intro acc acc' H h; cases h; exact ⟨[], .refl⟩
    | cons id ids ih =>
      intro acc acc' H h
      obtain ⟨acc1, h1, h⟩ := bind_ok_iff.1 h
      obtain ⟨td, -, h1⟩ := bind_ok_iff.1 h1
      obtain ⟨⟨g, sh1, t1, o1⟩, hc, h1⟩ := bind_ok_iff.1 h1
      cases h1
      obtain ⟨k1, h1⟩ := applyMovesRecomputing_steps hc H
      obtain ⟨k2, h2⟩ := ih _ _ (k1 ++ H) h
      exact ⟨k2 ++ k1, by rw [List.append_assoc]; exact h1.trans h2⟩
  obtain ⟨acc, hacc, h⟩ := bind_ok_iff.1 h
  cases h
  exact hall _ _ _ H hacc

/-! ## Every roll-back restores the state it undoes to -/

/-- Each roll-back, run right after the moves it undoes were made, returns
the labels and counters those moves found: `unroll_relaxed_moves` over log
entries `start, ...` subtracts exactly their gains and erases exactly their
nodes from `moved_nodes`; the tail roll-back of `gain_recalculation` and
`local_search_from_one_node` returns the moves it keeps; the vector overload
subtracts exactly the gains it holds. -/
theorem rollbacks_restore_state (c : Ctx β) :
    (∀ (log : List LogEntry) (start k : Nat) (s0 s1 : Shared β)
        (movedNodes : Nat → Option (Nat × Nat)) (cut : Int),
      start + k ≤ log.length →
      MovedAll c s0 (((log.drop start).take k).map (·.toMove)) s1 →
      ∃ s movedNodes', unrollRelaxedMoves c log start k s1 movedNodes cut =
          .ok (s, movedNodes', cut - (((log.drop start).take k).map (·.gain)).sum) ∧
        s.blocks = s0.blocks ∧ ∀ v, movedNodes' v =
          if v ∈ ((log.drop start).take k).map (·.node) then none else movedNodes v) ∧
    (∀ (kept undone : List Move) (s0 sk s1 : Shared β),
      MovedAll c s0 kept sk → MovedAll c sk undone s1 →
      ∃ s, rollBackwards c kept.length (undone.reverse ++ kept.reverse) s1 = .ok (s, kept.reverse) ∧
        s.blocks = sk.blocks) ∧
    (∀ (as : List Applied) (ms : List Move) (s0 s1 : Shared β) (cut : Int),
      as.map (fun a => (a.node, a.fromPart)) = ms.map (fun m => (m.node, m.fromPart)) →
      MovedAll c s0 ms.reverse s1 →
      ∃ s, unrollRelaxedMovesVec c as s1 cut = .ok (s, cut - (as.map (·.gain)).sum) ∧
        s.blocks = s0.blocks) := by
  refine ⟨fun log start k s0 s1 mn cut hk h => unrollRelaxedMoves_restores mn cut hk h rfl,
    fun kept undone s0 sk s1 hk hu => ?_,
    fun as ms s0 s1 cut hm h => unrollRelaxedMovesVec_restores cut hm h rfl⟩
  have hrun : MovedAll c s0 (undone.reverse ++ kept.reverse).reverse s1 := by
    simpa using hk.append hu
  obtain ⟨s, sm, hr, hsm, hs⟩ := rollBackwards_restores kept.length hrun rfl
  have hdrop : (undone.reverse ++ kept.reverse).drop
      ((undone.reverse ++ kept.reverse).length - kept.length) = kept.reverse := by
    simp [List.drop_append_eq_append_drop]
  rw [hdrop] at hr hsm
  rw [List.reverse_reverse] at hsm
  exact ⟨s, hr, hs.trans (congrArg Shared.blocks (hsm.det hk))⟩

end Kahip
