import Kahip.CommitSafety

/-!
# The exploration's logs are replayable

The other half of the commit's safety: the logs the threads write under the
`moved_idx` claim protocol are what `applyMoves_noAssert` asks for.
`RecWorld` adds to a batch each thread's `min_cut_indices`, which the caller
appends to when a step ends the thread's round, as `runRounds` does for one
thread. `LogInv` says what each position of a thread's log holds, and one
lemma per shape of step keeps it. Together with `BatchInv` it gives that
every thread's log is replayable on the labels the exploration read, and that
no two threads replay a common node.
-/

namespace Kahip

/-! ## The segments of `min_cut_indices` -/

/-- Where the segments of `min_cut_indices` end: the position after the
sentinel of the last recorded round. -/
def segEnd : Nat → List (Int × Int) → Nat
  | index, [] => index
  | _, (_, next) :: rest => segEnd (next + 1).toNat rest

theorem segEnd_append (mci next : Int) :
    ∀ (M : List (Int × Int)) (index : Nat), segEnd index (M ++ [(mci, next)]) = (next + 1).toNat
  | [], _ => rfl
  | (_, _) :: M, _ => segEnd_append mci next M _

theorem inSegment_append (mci next : Int) :
    ∀ (M : List (Int × Int)) (index p : Nat), InSegment index (M ++ [(mci, next)]) p ↔
      InSegment index M p ∨ (mci ≠ -1 ∧ segEnd index M ≤ p ∧ (p : Int) < next)
  | [], _, _ => by simp [InSegment, segEnd]
  | (_, _) :: M, _, p => by
    simp only [List.cons_append, InSegment, segEnd, List.append_eq, inSegment_append mci next M _ p, or_assoc]

theorem segsShape_append (mci next : Int) :
    ∀ (M : List (Int × Int)) (index : Nat), SegsShape index (M ++ [(mci, next)]) ↔
      SegsShape index M ∧ (segEnd index M : Int) ≤ next ∧ (mci ≠ -1 → mci < next)
  | [], _ => by simp [SegsShape, segEnd]
  | (_, _) :: M, _ => by
    simp only [List.cons_append, SegsShape, segEnd, List.append_eq, segsShape_append mci next M _, and_assoc]

theorem SegsShape.le_segEnd : ∀ {M : List (Int × Int)} {index : Nat}, SegsShape index M → index ≤ segEnd index M
  | [], _, _ => le_rfl
  | (_, _) :: _, _, ⟨hle, _, hs⟩ => by
    have := hs.le_segEnd
    simp only [segEnd]
    omega

theorem SegsShape.lt_segEnd : ∀ {M : List (Int × Int)} {index p : Nat}, SegsShape index M →
    InSegment index M p → p < segEnd index M
  | [], _, _, _, h => h.elim
  | (_, _) :: _, _, _, ⟨_, _, hs⟩, h => by
    simp only [segEnd]
    rcases h with h | h
    · have := hs.le_segEnd
      omega
    · exact hs.lt_segEnd h

/-! ## What a thread's log holds -/

/-- The round against the log: it began at position `E`, after the recorded
rounds, and has logged `swaps` moves since; its `min_cut_index` is `E - 1`
or the position of one of them. -/
def Round.Placed (r : Round) (E len : Nat) : Prop :=
  r.previouslyMoved = E ∧ E ≤ len ∧ (len : Int) = E + r.swaps ∧ (E : Int) - 1 ≤ r.minCutIndex ∧
    r.minCutIndex < len

namespace Pc

/-- Where the thread is, against its log: a running round is placed; between
rounds the log ends at `E`. -/
def Placed (E len : Nat) : Pc → Prop
  | .loop r => r.Placed E len
  | .scan r _ _ => r.Placed E len
  | .claim r _ _ _ _ => r.Placed E len
  | _ => len = E

/-- The move made but not yet logged. -/
def pendingEntry : Pc → Option LogEntry
  | .scan _ m _ => some m
  | .claim _ m _ _ _ => some m
  | _ => none

end Pc

/-- The positions of a thread's log that hold moves of the batch: those of
the recorded segments, and, while a round runs, those it has logged. -/
def Explorer.Live (t : Explorer) (M : List (Int × Int)) (p : Nat) : Prop :=
  InSegment 0 M p ∨ (t.pc.active = true ∧ segEnd 0 M ≤ p ∧ p < t.log.length)

/-- What a thread's log holds, given its recorded `min_cut_indices` `M` and
the nodes it popped in the batch: the recorded segments have the shape the
commit relies on and the round in progress is placed after them; every move
at a live position, and the move being made, was popped from the queue and
logged from the node's block in `X.part`; no node is logged at two live
positions; and only popped nodes have a local label. -/
structure LogInv (X : ExploreCtx) (t : Explorer) (M : List (Int × Int)) (pop : List Nat) : Prop where
  shape : SegsShape 0 M
  placed : t.pc.Placed (segEnd 0 M) t.log.length
  live : ∀ p le, t.Live M p → t.log[p]? = some le → le.fromPart = X.part le.node ∧ le.node ∈ pop
  inj : ∀ p q lp lq, t.Live M p → t.Live M q → t.log[p]? = some lp → t.log[q]? = some lq →
    lp.node = lq.node → p = q
  pending : ∀ m, t.pc.pendingEntry = some m → m.fromPart = X.part m.node ∧ m.node ∈ pop ∧
    ∀ p le, t.Live M p → t.log[p]? = some le → le.node ≠ m.node
  lp : ∀ v, t.lp v ≠ none → v ∈ pop

/-- What the caller appends to `td.min_cut_indices` when a step ends the
thread's round, as `runRounds` records it: the round's `min_cut_index` and
the position of its sentinel, after which `apply_moves` resumes. -/
def roundRecord (t t' : Explorer) : List (Int × Int) :=
  match t.pc, t'.pc with
  | .done _, _ => []
  | _, .done (_, minCutIndex, _) => [(minCutIndex, (t'.log.length : Int) - 1)]
  | _, _ => []

theorem Explorer.Live.of_log {t t' : Explorer} {M : List (Int × Int)} {p : Nat} (h : t'.Live M p)
    (hlog : t'.log = t.log) (hta : t.pc.active = true) : t.Live M p :=
  h.imp_right fun h' => ⟨hta, h'.2.1, hlog ▸ h'.2.2⟩

namespace LogInv

variable {X : ExploreCtx} {t t' : Explorer} {M : List (Int × Int)} {pop : List Nat}

theorem mono (hL : LogInv X t M pop) {pop' : List Nat} (h : ∀ v ∈ pop, v ∈ pop') : LogInv X t M pop' where
  shape := hL.shape
  placed := hL.placed
  live p le hp hle := (hL.live p le hp hle).imp_right (h _)
  inj := hL.inj
  pending m hm := (hL.pending m hm).imp_right fun h' => ⟨h _ h'.1, h'.2⟩
  lp v hv := h v (hL.lp v hv)

/-- A step that keeps the log, the local labels, whether a round runs and the
move being made. -/
theorem keep (hL : LogInv X t M pop) (hlog : t'.log = t.log) (hlp : t'.lp = t.lp)
    (hact : t'.pc.active = t.pc.active) (hpend : t'.pc.pendingEntry = t.pc.pendingEntry)
    (hpl : t'.pc.Placed (segEnd 0 M) t'.log.length) : LogInv X t' M pop := by
  have hlive : ∀ p, t'.Live M p → t.Live M p := fun p hp => by
    simpa only [Explorer.Live, hlog, hact] using hp
  refine ⟨hL.shape, hpl, fun p le hp hle => ?_, fun p q lp lq hp hq hlp' hlq => ?_, fun m hm => ?_,
    fun v hv => hL.lp v (hlp ▸ hv)⟩
  · rw [hlog] at hle; exact hL.live p le (hlive p hp) hle
  · rw [hlog] at hlp' hlq; exact hL.inj p q lp lq (hlive p hp) (hlive q hq) hlp' hlq
  · obtain ⟨h1, h2, h3⟩ := hL.pending m (hpend ▸ hm)
    exact ⟨h1, h2, fun p le hp hle => h3 p le (hlive p hp) (hlog ▸ hle)⟩

/-- The end of a round: the sentinel goes after the round's moves, and the
caller records the round. -/
theorem finish (hL : LogInv X t M pop) (hta : t.pc.active = true) {s : LogEntry} {g mci : Int} {mv : Nat}
    (hlog : t'.log = t.log ++ [s]) (hlp : ∀ v, t'.lp v ≠ none → t.lp v ≠ none) (hpc : t'.pc = .done (g, mci, mv))
    (hE : segEnd 0 M ≤ t.log.length) (hmci : mci ≠ -1 → mci < t.log.length) :
    LogInv X t' (M ++ [(mci, (t.log.length : Int))]) pop := by
  have hold : ∀ p, t'.Live (M ++ [(mci, (t.log.length : Int))]) p → t.Live M p ∧ p < t.log.length := by
    intro p hp
    rcases hp with hp | ⟨ha, -⟩
    · rcases (inSegment_append _ _ _ _ _).1 hp with hp | ⟨-, h1, h2⟩
      · exact ⟨.inl hp, (hL.shape.lt_segEnd hp).trans_le hE⟩
      · exact ⟨.inr ⟨hta, h1, by omega⟩, by omega⟩
    · simp [hpc, Pc.active] at ha
  have hget : ∀ p, p < t.log.length → t'.log[p]? = t.log[p]? := fun p hp => by
    rw [hlog, List.getElem?_append_left hp]
  refine ⟨(segsShape_append _ _ _ _).2 ⟨hL.shape, by exact_mod_cast hE, hmci⟩, ?_, fun p le hp hle => ?_,
    fun p q lp lq hp hq hlp' hlq => ?_, fun m hm => by simp [hpc, Pc.pendingEntry] at hm,
    fun v hv => hL.lp v (hlp v hv)⟩
  · simp only [hpc, Pc.Placed, segEnd_append, hlog, List.length_append, List.length_singleton]
    omega
  · obtain ⟨hp, hlt⟩ := hold p hp
    exact hL.live p le hp (hget p hlt ▸ hle)
  · obtain ⟨hp, hpl⟩ := hold p hp
    obtain ⟨hq, hql⟩ := hold q hq
    exact hL.inj p q lp lq hp hq (hget p hpl ▸ hlp') (hget q hql ▸ hlq)

/-- Logging the move just made: it goes at the end of the round's part of
the log. -/
theorem logMove (hL : LogInv X t M pop) {r : Round} {m : LogEntry} (hpc : t.pc = .scan r m [])
    (hlog : t'.log = t.log ++ [m]) (hlp : t'.lp = t.lp) (hpend : t'.pc.pendingEntry = none)
    (hpl : t'.pc.Placed (segEnd 0 M) t'.log.length) : LogInv X t' M pop := by
  obtain ⟨hm1, hm2, hm3⟩ := hL.pending m (by simp [hpc, Pc.pendingEntry])
  have hta : t.pc.active = true := by simp [hpc, Pc.active]
  have hE : segEnd 0 M ≤ t.log.length := by
    have h := hL.placed
    simp only [hpc, Pc.Placed, Round.Placed] at h
    exact h.2.1
  have hlen : t'.log.length = t.log.length + 1 := by simp [hlog]
  -- a live position of the new log is an old one, or the new entry
  have hcases : ∀ p le, t'.Live M p → t'.log[p]? = some le →
      (t.Live M p ∧ t.log[p]? = some le) ∨ (p = t.log.length ∧ le = m) := by
    intro p le hp hle
    have hp' : InSegment 0 M p ∨ (segEnd 0 M ≤ p ∧ p < t.log.length + 1) := by
      rcases hp with hp | ⟨-, h1, h2⟩
      · exact .inl hp
      · exact .inr ⟨h1, hlen ▸ h2⟩
    by_cases hlt : p < t.log.length
    · rw [hlog, List.getElem?_append_left hlt] at hle
      exact .inl ⟨hp'.imp_right fun h => ⟨hta, h.1, hlt⟩, hle⟩
    · have hp : p = t.log.length := by
        rcases hp' with hp | hp
        · have := hL.shape.lt_segEnd hp
          omega
        · omega
      subst hp
      rw [hlog, List.getElem?_append_right le_rfl, Nat.sub_self] at hle
      exact .inr ⟨rfl, (Option.some.inj hle).symm⟩
  refine ⟨hL.shape, hpl, fun p le hp hle => ?_, fun p q lp lq hp hq hlp' hlq hn => ?_,
    fun m' hm' => by simp [hpend] at hm', fun v hv => hL.lp v (hlp ▸ hv)⟩
  · rcases hcases p le hp hle with ⟨hp, hle⟩ | ⟨-, rfl⟩
    · exact hL.live p le hp hle
    · exact ⟨hm1, hm2⟩
  · rcases hcases p lp hp hlp' with ⟨hp, hlp'⟩ | ⟨rfl, rfl⟩ <;>
      rcases hcases q lq hq hlq with ⟨hq, hlq⟩ | ⟨rfl, rfl⟩
    · exact hL.inj p q lp lq hp hq hlp' hlq hn
    · exact absurd hn (hm3 p lp hp hlp')
    · exact absurd hn.symm (hm3 q lq hq hlq)
    · rfl

theorem stepQuiet (hL : LogInv X t' M pop) {t : Explorer} (hr : roundRecord t t' = []) {ev : Option Event}
    (hev : Event.popsOf ev = []) : LogInv X t' (M ++ roundRecord t t') (pop ++ Event.popsOf ev) := by
  rw [hr, hev, List.append_nil, List.append_nil]
  exact hL

theorem stepPop {v : Nat} (hL : LogInv X t' M (pop ++ [v])) {t : Explorer} (hr : roundRecord t t' = []) :
    LogInv X t' (M ++ roundRecord t t') (pop ++ Event.popsOf (some (.pop v))) := by
  rw [hr, List.append_nil]
  exact hL

/-- One step of a thread keeps its log invariant, the caller recording the
round the step ends. -/
theorem step {ins : List Nat} {idx idx' : Nat → Bool} {fin : Nat} {ev : Option Event}
    (hi : ThreadInv X t ins pop) (hL : LogInv X t M pop) (h : exploreStep X idx fin t = .ok (idx', t', ev)) :
    LogInv X t' (M ++ roundRecord t t') (pop ++ Event.popsOf ev) := by
  unfold exploreStep at h
  split at h
  · -- the seeding loop is over
    rename_i hpc
    have hE : t.log.length = segEnd 0 M := by simpa [hpc, Pc.Placed] using hL.placed
    split at h <;> cases h
    · have h : LogInv X { t with log := t.log ++ [X.sentinelEntry], pc := .done (0, -1, 0) }
          (M ++ [(-1, (t.log.length : Int))]) pop :=
        hL.finish (by simp [hpc, Pc.active]) rfl (fun _ hv => hv) rfl hE.ge (by simp)
      simpa [roundRecord, hpc, Event.popsOf] using h
    · refine stepQuiet (hL.keep (by rfl) (by rfl) (by simp [hpc, Pc.active]) (by simp [hpc, Pc.pendingEntry])
        (by simp only [Pc.Placed, Round.Placed]; omega)) (by simp [roundRecord, hpc]) (by rfl)
  · -- a start node
    rename_i v rest hpc
    have hE : t.log.length = segEnd 0 M := by simpa [hpc, Pc.Placed] using hL.placed
    split at h <;> cases h <;>
    exact stepQuiet (hL.keep (by rfl) (by rfl) (by simp [hpc, Pc.active]) (by simp [hpc, Pc.pendingEntry])
      (by simpa [Pc.Placed] using hE)) (by simp [roundRecord, hpc]) (by simp [Event.popsOf])
  · -- the top of the main loop
    rename_i r hpc
    have hta : t.pc.active = true := by simp [hpc, Pc.active]
    have hpl : r.Placed (segEnd 0 M) t.log.length := by simpa [hpc, Pc.Placed] using hL.placed
    have hfin : ∀ t0 : Explorer, t0.log = t.log →
        LogInv X (finishRound X t0 r) (M ++ roundRecord t (finishRound X t0 r)) (pop ++ Event.popsOf none) :=
      fun t0 h0 => by
        have h : LogInv X (finishRound X t0 r) (M ++ [(r.minCutIndex, (t.log.length : Int))]) pop :=
          hL.finish hta (s := X.sentinelEntry) (by simp [finishRound, h0]) (fun v hv => by simp [finishRound] at hv)
            rfl hpl.2.1 fun _ => hpl.2.2.2.2
        simpa [roundRecord, hpc, finishRound, h0, Event.popsOf] using h
    by_cases hgo : ¬r.movements < r.maxSwaps ∨ t.queue.isEmpty = true ∨ 0 < fin
    · rw [if_pos hgo] at h; cases h; exact hfin t rfl
    rw [if_neg hgo] at h
    simp only [Oracle.stop, Oracle.pick] at h
    by_cases hs : t.oracle.stops 0 = true
    · rw [if_pos hs] at h; cases h; exact hfin _ rfl
    rw [if_neg hs] at h
    have hne : t.queue.isEmpty = false := by simpa using (not_or.1 (not_or.1 hgo).2).1
    obtain ⟨hmem, -⟩ := PQ.deleteMax_spec hne (t.oracle.picks 0)
    rcases hdm : t.queue.deleteMax (t.oracle.picks 0) with ⟨node, queue⟩
    rw [hdm] at hmem
    simp only [hdm] at h hmem
    have hfree : node ∉ pop := (hi.queue hta node hmem).2
    have hpop : LogInv X t M (pop ++ [node]) := hL.mono fun v hv => List.mem_append_left _ hv
    have hfail : ∀ o : Oracle,
        LogInv X { t with queue, oracle := o, pc := .loop { r with movements := r.movements + 1 } }
          (M ++ roundRecord t { t with queue, oracle := o, pc := .loop { r with movements := r.movements + 1 } })
          (pop ++ Event.popsOf (some (.pop node))) := fun _ =>
      stepPop (hpop.keep (by rfl) (by rfl) (by simp [hpc, Pc.active]) (by simp [hpc, Pc.pendingEntry])
        (by exact hpl)) (by simp [roundRecord, hpc])
    split at h
    · cases h
    split at h
    · cases h
    split at h
    · cases h; exact hfail _
    split at h <;> cases h
    · exact hfail _
    · -- the move: its source is the node's block in `X.part`, as the node has no local label yet
      have hlpn : t.lp node = none := by
        by_contra hc
        exact hfree (hL.lp node hc)
      refine stepPop ?_ (by simp [roundRecord, hpc])
      refine ⟨hL.shape, hpl, fun p le hp hle => hpop.live p le (hp.of_log rfl hta) hle,
        fun p q lp lq hp hq => hL.inj p q lp lq (hp.of_log rfl hta) (hq.of_log rfl hta),
        fun m hm => ?_, fun v hv => ?_⟩
      · simp only [Pc.pendingEntry, Option.some.injEq] at hm
        subst hm
        refine ⟨by simp [Explorer.localPart, hlpn], List.mem_append_right _ (List.mem_singleton_self _),
          fun p le hp hle hn => hfree ?_⟩
        rw [← show le.node = node from hn]
        exact (hL.live p le (hp.of_log rfl hta) hle).2
      · by_cases hv' : v = node
        · exact hv' ▸ List.mem_append_right _ (List.mem_singleton_self _)
        · exact List.mem_append_left _ (hL.lp v (by simpa [Function.update_noteq hv'] using hv))
  · -- the neighbour loop is over: log the move
    rename_i r m hpc
    simp only [Oracle.bit] at h
    have hpl : r.Placed (segEnd 0 M) t.log.length := by simpa [hpc, Pc.Placed] using hL.placed
    split at h <;> split at h <;> cases h <;>
    refine stepQuiet (hL.logMove hpc (by rfl) (by rfl) (by rfl) ?_) (by simp [roundRecord, hpc]) (by rfl) <;>
    simp only [Pc.Placed, Round.Placed, List.length_append, List.length_singleton] at hpl ⊢ <;> omega
  · -- a neighbour: update its gain, or read its claim
    rename_i r m v rest hpc
    have hpl : t.pc.Placed (segEnd 0 M) t.log.length := hL.placed
    dsimp only at h
    split at h
    · cases h
      exact stepQuiet (hL.keep (by rfl) (by rfl) (by simp [hpc, Pc.active]) (by simp [hpc, Pc.pendingEntry])
        (by simpa [hpc, Pc.Placed] using hpl)) (by simp [roundRecord, hpc]) (by rfl)
    split at h <;> (try split at h) <;> cases h <;>
      exact stepQuiet (hL.keep (by rfl) (by rfl) (by simp [hpc, Pc.active]) (by simp [hpc, Pc.pendingEntry])
        (by simpa [hpc, Pc.Placed] using hpl)) (by simp [roundRecord, hpc]) (by rfl)
  · -- the compare_exchange on a neighbour
    rename_i r m v gain rest hpc
    have hpl : t.pc.Placed (segEnd 0 M) t.log.length := hL.placed
    split at h <;> cases h <;>
      exact stepQuiet (hL.keep (by rfl) (by rfl) (by simp [hpc, Pc.active]) (by simp [hpc, Pc.pendingEntry])
        (by simpa [hpc, Pc.Placed] using hpl)) (by simp [roundRecord, hpc]) (by simp [Event.popsOf])
  · -- an idle thread
    rename_i res hpc
    cases h
    exact stepQuiet hL (by simp [roundRecord, hpc]) (by rfl)

/-- A new round on an idle thread: the log ends where the recorded segments
end, so the round starts placed. -/
theorem beginRound (hL : LogInv X t M pop) {res : Int × Int × Nat} (hd : t.pc = .done res)
    (starts : List Nat) : LogInv X (t.beginRound starts) M pop := by
  have hE : t.log.length = segEnd 0 M := by simpa [hd, Pc.Placed] using hL.placed
  have hlive : ∀ p, (t.beginRound starts).Live M p → t.Live M p := fun p hp => by
    rcases hp with hp | ⟨-, h1, h2⟩
    · exact .inl hp
    · simp only [Explorer.beginRound] at h2; omega
  exact ⟨hL.shape, hE, fun p le hp => hL.live p le (hlive p hp), fun p q lp lq hp hq =>
    hL.inj p q lp lq (hlive p hp) (hlive q hq), fun m hm => by simp [Explorer.beginRound, Pc.pendingEntry] at hm,
    hL.lp⟩

/-- An idle thread with an empty log and no local labels. -/
theorem init (t : Explorer) {res : Int × Int × Nat} (hd : t.pc = .done res) (hlog : t.log = [])
    (hlp : ∀ v, t.lp v = none) : LogInv X t [] [] where
  shape := trivial
  placed := by simp [hd, Pc.Placed, hlog, segEnd]
  live p le _ hle := by simp [hlog] at hle
  inj p _ _ _ _ _ hlp' := by simp [hlog] at hlp'
  pending m hm := by simp [hd, Pc.pendingEntry] at hm
  lp v hv := absurd (hlp v) hv

end LogInv

/-! ## The batch, with `min_cut_indices` -/

/-- A batch together with each thread's `td.min_cut_indices`. -/
structure RecWorld where
  w : World
  mcis : Nat → List (Int × Int)

/-- A step of the batch, the caller of a thread recording the round the
thread's step ends. -/
inductive RecStep (X : ExploreCtx) : RecWorld → RecWorld → Prop
  | step {r : RecWorld} {i : Nat} {idx' : Nat → Bool} {t' : Explorer} {ev : Option Event}
      (h : exploreStep X r.w.idx r.w.finished (r.w.threads i) = .ok (idx', t', ev)) :
      RecStep X r ⟨⟨idx', r.w.finished, Function.update r.w.threads i t', r.w.trace ++ (ev.map (i, ·)).toList⟩,
        Function.update r.mcis i (r.mcis i ++ roundRecord (r.w.threads i) t')⟩
  | round {r : RecWorld} {i : Nat} {res : Int × Int × Nat} (starts : List Nat)
      (h : (r.w.threads i).pc = .done res) :
      RecStep X r ⟨⟨r.w.idx, r.w.finished,
        Function.update r.w.threads i ((r.w.threads i).beginRound starts), r.w.trace⟩, r.mcis⟩
  | finish {r : RecWorld} : RecStep X r ⟨⟨r.w.idx, r.w.finished + 1, r.w.threads, r.w.trace⟩, r.mcis⟩

theorem RecStep.batch {X : ExploreCtx} {r r' : RecWorld} (h : RecStep X r r') : BatchStep X r.w r'.w := by
  cases h with
  | step h => exact .step h
  | round starts h => exact .round starts h
  | finish => exact .finish

/-- The threads' data `threads_data` of the first `n` threads, as the commit
reads them. -/
def RecWorld.threadLogs (r : RecWorld) (n : Nat) : List ThreadLog :=
  (List.range n).map fun i => ⟨i, (r.w.threads i).log, r.mcis i⟩

/-- What holds in a batch with its recorded `min_cut_indices`. -/
structure RecInv (X : ExploreCtx) (r : RecWorld) : Prop where
  batch : BatchInv X r.w
  log : ∀ i, LogInv X (r.w.threads i) (r.mcis i) (popsBy i r.w.trace)

theorem RecInv.step {X : ExploreCtx} {r r' : RecWorld} (hb : RecInv X r) (hs : RecStep X r r') : RecInv X r' := by
  refine ⟨hb.batch.step hs.batch, fun j => ?_⟩
  cases hs with
  | @step i _ _ ev h =>
    show LogInv X _ _ (popsBy j (_ ++ _))
    rw [popsBy_step]
    by_cases hij : i = j
    · subst hij
      simpa using (hb.log i).step (hb.batch.thread i) h
    · simpa [hij, Function.update_noteq (Ne.symm hij)] using hb.log j
  | @round i _ starts hd =>
    by_cases hij : j = i
    · subst hij; simpa using (hb.log j).beginRound hd starts
    · simpa [Function.update_noteq hij] using hb.log j
  | finish => exact hb.log j

theorem RecInv.run {X : ExploreCtx} {r r' : RecWorld} (hb : RecInv X r)
    (hr : Relation.ReflTransGen (RecStep X) r r') : RecInv X r' := by
  induction hr with
  | refl => exact hb
  | tail _ hs ih => exact ih.step hs

/-- Every thread's recorded log is replayable on the labels the exploration
read, and no two threads replay a common node. -/
theorem RecInv.threadLogs {X : ExploreCtx} {r : RecWorld} (hb : RecInv X r) (n : Nat) :
    AllReplayable X.part (r.threadLogs n) ∧ ReplaysDisjoint (r.threadLogs n) := by
  have hget : ∀ (j : Nat) (td : ThreadLog), (r.threadLogs n)[j]? = some td →
      td = ⟨j, (r.w.threads j).log, r.mcis j⟩ := by
    intro j td h
    simp only [RecWorld.threadLogs, List.getElem?_map] at h
    obtain ⟨k, hk, rfl⟩ := Option.map_eq_some'.1 h
    obtain ⟨hj, rfl⟩ := List.getElem?_eq_some_iff.1 hk
    rw [List.getElem_range]
  have hins : ∀ (j v : Nat), ThreadLog.Replays ⟨j, (r.w.threads j).log, r.mcis j⟩ v →
      v ∈ insertsBy j r.w.trace :=
    fun j v ⟨p, le, hp, hle, hv⟩ => hv ▸ (hb.batch.thread j).popIns _ ((hb.log j).live p le (.inl hp) hle).2
  refine ⟨fun j td h => ?_, fun i j ti tj hij hi hj v hvi hvj => ?_⟩
  · obtain rfl := hget j td h
    exact ⟨(hb.log j).shape, fun p q lp lq hp hq => (hb.log j).inj p q lp lq (.inl hp) (.inl hq),
      fun p le hp hle => ((hb.log j).live p le (.inl hp) hle).1⟩
  · obtain rfl := hget i ti hi
    obtain rfl := hget j tj hj
    exact hij (hb.batch.owner i j v (hins i v hvi) (hins j v hvj))

/-! ## No block assertion fails in the commit -/

/-- Logs produced by any interleaving of the threads' rounds under the
`moved_idx` claim protocol, from idle threads with empty logs and no local
labels, and committed on the labels the exploration read: for every policy
and every finishing order of the worker threads, `apply_moves` fails none of
its assertions. Every `relaxed_move_node` finds the node in the from-block
it is given. Every `relaxed_move_node_back` finds it in its `to` block. And
every node `move_node` pops in `local_search_from_one_node` has a target
block. -/
theorem commit_block_assertions_hold {β : Type} {X : ExploreCtx} {e : Env β} (hl : ComputeGainLaws e)
    (hm : e.G.Mutual) {r0 r : RecWorld} (h0 : r0.w.Init) (hlp : ∀ i v, (r0.w.threads i).lp v = none)
    (hmc : ∀ i, r0.mcis i = []) (hr : Relation.ReflTransGen (RecStep X) r0 r) {sh : Shared β}
    (hsh : sh.blocks.part = X.part) (cfg : ApplyConfig) (n : Nat) (rnd : Nat → Oracle) (ct : Bool)
    {finishOrder : List Nat} (hf : 0 ∉ finishOrder) (futures touched : Nat → Bool) (reactivated : List Nat) :
    applyMoves e cfg (r.threadLogs n) rnd ct finishOrder futures sh touched reactivated ≠ .error .assertion := by
  have hb : RecInv X r := RecInv.run ⟨BatchInv.init h0, fun i => by
    obtain ⟨res, hd⟩ := h0.idle i
    rw [hmc i, h0.trace]
    exact LogInv.init _ hd (h0.log i) (hlp i)⟩ hr
  obtain ⟨hrep, hdisj⟩ := hb.threadLogs n
  exact applyMoves_noAssert hl hm (fun j td h => hsh ▸ hrep j td h) hdisj rnd ct hf futures touched
    reactivated

theorem commit_block_assertions_hold_on_bridge :
    ∃ r : RecWorld, Relation.ReflTransGen (RecStep bridgeCtx) ⟨idleWorld, fun _ => []⟩ r ∧ r.mcis 0 = [(0, 1)] ∧
      applyMoves bridgeEnv ⟨.localSearch, false⟩ (r.threadLogs 2) (fun _ => Oracle.firstChoice) false [1]
        (fun _ => false) bridgeStart (fun _ => false) [] ≠ .error .assertion :=
  have hr : Relation.ReflTransGen (RecStep bridgeCtx) ⟨idleWorld, fun _ => []⟩ _ :=
    ((((((Relation.ReflTransGen.single (RecStep.round (X := bridgeCtx) (r := ⟨idleWorld, fun _ => []⟩) (i := 0)
      [1] rfl)).tail (.step (i := 0) rfl)).tail
      (.step (i := 0) rfl)).tail (.step (i := 0) rfl)).tail (.step (i := 0) rfl)).tail
      (.step (i := 0) rfl)).tail (.step (i := 0) rfl)
  ⟨_, hr, rfl, commit_block_assertions_hold (connGain_computeGainLaws rfl) bridge_mutual
    ⟨fun _ => rfl, rfl, fun _ => ⟨_, rfl⟩, fun _ => rfl⟩ (fun _ _ => rfl) (fun _ => rfl) hr rfl _ 2 _ false
    (by decide) _ _ _⟩

end Kahip
