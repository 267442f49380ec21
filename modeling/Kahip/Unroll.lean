import Kahip.Commit

/-!
# Roll-backs

Four loops of the commit phase undo moves: both overloads of
`unroll_relaxed_moves`, and the tail roll-backs ("roll backwards") of
`gain_recalculation` and `local_search_from_one_node`. Each is modelled
below in its own shape, and each is shown to restore labels and counters
exactly when it runs right after the moves it undoes, however many there
are: one undo per move (`relaxedMoveNodeBack_after`), then an induction over
the undone moves, last first. The boundary's pair index is not compared,
its update routine being abstract.
-/

namespace Kahip

/-- A move as the commit routines record it. -/
structure Move where
  node : Nat
  fromPart : Nat
  toPart : Nat
deriving Repr, DecidableEq

/-- One slot of the four parallel log vectors `td.transpositions`,
`td.from_partitions`, `td.to_partitions` and `td.gains`. -/
structure LogEntry extends Move where
  gain : Int
deriving Repr, DecidableEq

/-- One slot of the three vectors the gain-recomputing `apply_moves` keeps
(`transpositions`, `from_partitions`, `gains`): no target, since the
roll-back reads the node's current block. -/
structure Applied where
  node : Nat
  fromPart : Nat
  gain : Int
deriving Repr, DecidableEq

/-- `v[i]`; reading past the end is undefined behaviour. -/
def entryAt {α : Type} (l : List α) (i : Nat) : Except Fault α :=
  match l[i]? with
  | some a => .ok a
  | none => .error .outOfBounds

theorem entryAt_ok {α : Type} {l : List α} {i : Nat} {a : α} (h : entryAt l i = .ok a) :
    l[i]? = some a := by
  unfold entryAt at h
  split at h <;> cases h
  assumption

/-- What `entryAt` returns is an entry of the vector. -/
theorem entryAt_mem {α : Type} {l : List α} {i : Nat} {a : α} (h : entryAt l i = .ok a) : a ∈ l :=
  List.getElem?_mem (entryAt_ok h)

variable {β : Type} (c : Ctx β)

/-- `ms` were moved one after the other, every `relaxed_move_node` returning
`true`. -/
inductive MovedAll : Shared β → List Move → Shared β → Prop
  | nil (s : Shared β) : MovedAll s [] s
  | cons {s s' s'' : Shared β} {m : Move} {ms : List Move} :
      relaxedMoveNode c s m.node m.fromPart m.toPart = .ok (true, s') →
      MovedAll s' ms s'' → MovedAll s (m :: ms) s''

/-- `unroll_relaxed_moves(td, moved_nodes, start, start + k, cut_improvement)`:
undo the log entries `start + k - 1` down to `start`, subtracting their gains
and erasing their nodes from `moved_nodes`. -/
def unrollRelaxedMoves (log : List LogEntry) (start : Nat) :
    Nat → Shared β → (Nat → Option (Nat × Nat)) → Int →
      Except Fault (Shared β × (Nat → Option (Nat × Nat)) × Int)
  | 0, s, movedNodes, cut => .ok (s, movedNodes, cut)
  | k + 1, s, movedNodes, cut => do
    let e ← entryAt log (start + k)
    let s' ← relaxedMoveNodeBack c s e.node e.fromPart e.toPart
    unrollRelaxedMoves log start k s' (Function.update movedNodes e.node none) (cut - e.gain)

/-- `unroll_relaxed_moves(td, transpositions, from_partitions, gains,
cut_improvement)`, on the vectors listed newest first: undo each, with the
node's current block as `to`. -/
def unrollRelaxedMovesVec : List Applied → Shared β → Int → Except Fault (Shared β × Int)
  | [], s, cut => .ok (s, cut)
  | a :: as, s, cut => do
    let s' ← relaxedMoveNodeBack c s a.node a.fromPart (s.blocks.part a.node)
    unrollRelaxedMovesVec as s' (cut - a.gain)

/-- The tail roll-back of `gain_recalculation` and
`local_search_from_one_node`, on their vectors listed newest first: while
more than `keep` moves are recorded, pop the newest and move it back. -/
def rollBackwards (keep : Nat) : List Move → Shared β → Except Fault (Shared β × List Move)
  | [], s => .ok (s, [])
  | m :: ms, s =>
    if keep < ms.length + 1 then do
      let s' ← relaxedMoveNodeBack c s m.node m.fromPart m.toPart
      rollBackwards keep ms s'
    else .ok (s, m :: ms)

variable {c}

theorem MovedAll.append {s s' s'' : Shared β} {ms ms' : List Move}
    (h : MovedAll c s ms s') (h' : MovedAll c s' ms' s'') : MovedAll c s (ms ++ ms') s'' := by
  induction h with
  | nil => exact h'
  | cons hm _ ih => exact .cons hm (ih h')

theorem MovedAll.of_append {s s'' : Shared β} {ms ms' : List Move}
    (h : MovedAll c s (ms ++ ms') s'') : ∃ s', MovedAll c s ms s' ∧ MovedAll c s' ms' s'' := by
  induction ms generalizing s with
  | nil => exact ⟨s, .nil s, h⟩
  | cons m ms ih =>
    cases h with
    | cons hm h =>
      obtain ⟨s', h1, h2⟩ := ih h
      exact ⟨s', .cons hm h1, h2⟩

theorem MovedAll.det {s s1 s2 : Shared β} {ms : List Move} (h1 : MovedAll c s ms s1)
    (h2 : MovedAll c s ms s2) : s1 = s2 := by
  induction h1 with
  | nil => cases h2; rfl
  | cons hm _ ih =>
    cases h2 with
    | cons hm' h2 =>
      rw [hm] at hm'
      cases hm'
      exact ih h2

theorem MovedAll.snoc {s s' s'' : Shared β} {ms : List Move} {m : Move}
    (h : MovedAll c s ms s')
    (hm : relaxedMoveNode c s' m.node m.fromPart m.toPart = .ok (true, s'')) :
    MovedAll c s (ms ++ [m]) s'' :=
  h.append (.cons hm (.nil _))

/-- Undoing the last of a run of moves, from any state with the labels and
counters the run ended in. -/
theorem undo_last {s0 s1 t : Shared β} {ms : List Move} {m : Move}
    (h : MovedAll c s0 (ms ++ [m]) s1) (ht : t.blocks = s1.blocks) :
    ∃ sm t', MovedAll c s0 ms sm ∧
      relaxedMoveNodeBack c t m.node m.fromPart m.toPart = .ok t' ∧ t'.blocks = sm.blocks := by
  obtain ⟨sm, h1, h2⟩ := MovedAll.of_append h
  cases h2 with
  | cons hm h3 =>
    cases h3
    obtain ⟨hp, -, -, hb⟩ := relaxedMoveNode_true hm
    have hd : t.blocks.part m.node = m.toPart := by simp [ht, hb]
    exact ⟨sm, _, h1, if_neg (not_not.2 hd), by rw [ht, hb]; exact Blocks.back_move hp⟩

/-! ## Each roll-back restores what the moves it undoes found -/

/-- The `moved_nodes` overload, right after the log entries `start`,
..., `start + k - 1` were committed from `s0`: it returns, restores labels
and counters, subtracts exactly their gains, and erases their nodes from
`moved_nodes`, leaving every other entry as it was. -/
theorem unrollRelaxedMoves_restores {log : List LogEntry} {start : Nat} :
    ∀ {k : Nat} {s0 s1 t : Shared β} (movedNodes : Nat → Option (Nat × Nat)) (cut : Int),
      start + k ≤ log.length →
      MovedAll c s0 (((log.drop start).take k).map (·.toMove)) s1 → t.blocks = s1.blocks →
      ∃ s movedNodes', unrollRelaxedMoves c log start k t movedNodes cut =
          .ok (s, movedNodes', cut - (((log.drop start).take k).map (·.gain)).sum) ∧
        s.blocks = s0.blocks ∧ ∀ v, movedNodes' v =
          if v ∈ ((log.drop start).take k).map (·.node) then none else movedNodes v
  | 0, s0, s1, t, movedNodes, cut, _, h, ht => by
    cases h
    exact ⟨t, movedNodes, by simp [unrollRelaxedMoves], ht, by simp⟩
  | k + 1, s0, s1, t, movedNodes, cut, hk, h, ht => by
    have hlt : start + k < log.length := by omega
    have hslice : (log.drop start).take (k + 1) = (log.drop start).take k ++ [log[start + k]] := by
      rw [List.take_succ, List.getElem?_drop, List.getElem?_eq_getElem hlt]; rfl
    rw [hslice, List.map_append] at h
    obtain ⟨sm, t', h1, hback, ht'⟩ := undo_last h ht
    obtain ⟨s, mn', hrun, hs, hmn⟩ :=
      unrollRelaxedMoves_restores (Function.update movedNodes log[start + k].node none)
        (cut - log[start + k].gain) (by omega) h1 ht'
    refine ⟨s, mn', ?_, hs, fun v => ?_⟩
    · simp only [unrollRelaxedMoves, entryAt, List.getElem?_eq_getElem hlt, bind, Except.bind,
        hback, hrun, hslice, List.map_append, List.sum_append]
      congr 3
      simp; ring
    · rw [hmn, hslice]
      by_cases hv : v = log[start + k].node <;> simp [hv, Function.update_apply]

/-- The vector overload, right after the moves it lists (newest first) were
made from `s0`: it returns, restores labels and counters, and subtracts
exactly their gains. -/
theorem unrollRelaxedMovesVec_restores :
    ∀ {as : List Applied} {ms : List Move} {s0 s1 t : Shared β} (cut : Int),
      as.map (fun a => (a.node, a.fromPart)) = ms.map (fun m => (m.node, m.fromPart)) →
      MovedAll c s0 ms.reverse s1 → t.blocks = s1.blocks →
      ∃ s, unrollRelaxedMovesVec c as t cut = .ok (s, cut - (as.map (·.gain)).sum) ∧
        s.blocks = s0.blocks
  | [], ms, s0, s1, t, cut, hm, h, ht => by
    obtain rfl : ms = [] := List.map_eq_nil_iff.1 hm.symm
    cases h
    exact ⟨t, by simp [unrollRelaxedMovesVec], ht⟩
  | a :: as, [], _, _, _, _, hm, _, _ => by simp at hm
  | a :: as, m :: ms, s0, s1, t, cut, hm, h, ht => by
    simp only [List.map_cons, List.cons.injEq, Prod.mk.injEq] at hm
    obtain ⟨⟨hn, hf⟩, hm⟩ := hm
    rw [List.reverse_cons] at h
    obtain ⟨sm, t', h1, hback, ht'⟩ := undo_last h ht
    have hd : t.blocks.part m.node = m.toPart := (relaxedMoveNodeBack_ok hback).1
    obtain ⟨s, hrun, hs⟩ := unrollRelaxedMovesVec_restores (cut - a.gain) hm h1 ht'
    refine ⟨s, ?_, hs⟩
    simp only [unrollRelaxedMovesVec]
    rw [hn, hf, hd, hback]
    simp only [bind, Except.bind, hrun, List.map_cons, List.sum_cons, sub_add_eq_sub_sub]

/-- The tail roll-back, right after the moves it holds (newest first) were
made from `s0`: it returns the oldest `keep` of them, and restores the labels
and counters those left. -/
theorem rollBackwards_restores (keep : Nat) :
    ∀ {ms : List Move} {s0 s1 t : Shared β}, MovedAll c s0 ms.reverse s1 → t.blocks = s1.blocks →
      ∃ s sm, rollBackwards c keep ms t = .ok (s, ms.drop (ms.length - keep)) ∧
        MovedAll c s0 (ms.drop (ms.length - keep)).reverse sm ∧ s.blocks = sm.blocks
  | [], s0, s1, t, h, ht => by
    cases h
    exact ⟨t, s0, by simp [rollBackwards], by simpa using MovedAll.nil s0, ht⟩
  | m :: ms, s0, s1, t, h, ht => by
    by_cases hk : keep < ms.length + 1
    · rw [List.reverse_cons] at h
      obtain ⟨sm, t', h1, hback, ht'⟩ := undo_last h ht
      obtain ⟨s, sm', hrun, h2, hs⟩ := rollBackwards_restores keep h1 ht'
      have hdrop : (m :: ms).drop ((m :: ms).length - keep) = ms.drop (ms.length - keep) := by
        rw [List.length_cons, show ms.length + 1 - keep = ms.length - keep + 1 by omega,
          List.drop_succ_cons]
      refine ⟨s, sm', ?_, hdrop ▸ h2, hs⟩
      simp only [rollBackwards, if_pos hk, hback, bind, Except.bind, hrun, hdrop]
    · have hdrop : ms.length + 1 - keep = 0 := by omega
      exact ⟨t, s1, by simp [rollBackwards, hk, hdrop], by simpa [hdrop] using h, ht⟩

end Kahip
