import Sequencer.Proofs.Trace

/-!
Loops with a budget of turns. A loop that stops before its budget is used up does the same with a
larger one. A loop that is cut there and is taken up again with another budget makes the turns that
a loop with both budgets makes.
-/

namespace Sequencer

namespace Traced

variable {σ S γ : Type}

/-- Makes the turns that are due as long as they go on, but no more than `left`; then it is cut. -/
def loop (due : S → Option (Traced σ (S × Bool))) (cut : S → Entry σ) (left : Nat) (s : S) :
    Traced σ S :=
  match left with
  | 0 => do
    emit (cut s)
    return s
  | left + 1 =>
    match due s with
    | none => pure s
    | some turn => do
      let (s, goesOn) ← turn
      if goesOn then loop due cut left s else return s

def continued (due : S → Option (Traced σ (S × Bool))) (left : Nat) (s : S) : Nat :=
  match left with
  | 0 => 0
  | left + 1 =>
    match due s with
    | none => 0
    | some turn => if turn.value.2 then continued due left turn.value.1 + 1 else 0

variable {due : S → Option (Traced σ (S × Bool))} {cut cut' cut'' : S → Entry σ}

theorem loop_of_due_none {s : S} (hdue : due s = none) (left : Nat) :
    loop due cut (left + 1) s = pure s := by
  rw [loop, hdue]

theorem loop_of_due_some {s : S} {turn : Traced σ (S × Bool)} (hdue : due s = some turn)
    (left : Nat) :
    loop due cut (left + 1) s =
      turn >>= fun r => if r.2 then loop due cut left r.1 else pure r.1 := by
  rw [loop, hdue]

theorem continued_of_due_none {s : S} (hdue : due s = none) (left : Nat) :
    continued due left s = 0 := by
  cases left with
  | zero => rfl
  | succ left => rw [continued, hdue]

theorem continued_of_due_some {s : S} {turn : Traced σ (S × Bool)} (hdue : due s = some turn)
    (left : Nat) :
    continued due (left + 1) s =
      if turn.value.2 then continued due left turn.value.1 + 1 else 0 := by
  rw [continued, hdue]

theorem continued_le (left : Nat) (s : S) : continued due left s ≤ left := by
  induction left generalizing s with
  | zero => exact Nat.le_refl 0
  | succ left ih =>
    rw [continued]
    split
    . exact Nat.zero_le _
    . split
      . exact Nat.succ_le_succ (ih _)
      . exact Nat.zero_le _

theorem loop_add_of_continued_lt {left : Nat} {s : S} (h : continued due left s < left)
    (more : Nat) : loop due cut' (left + more) s = loop due cut left s := by
  induction left generalizing s with
  | zero => simp at h
  | succ left ih =>
    rw [Nat.add_right_comm]
    cases hdue : due s with
    | none => rw [loop_of_due_none hdue, loop_of_due_none hdue]
    | some turn =>
      rw [loop_of_due_some hdue, loop_of_due_some hdue]
      rw [continued_of_due_some hdue] at h
      apply bind_congr_value
      cases hgoes : turn.value.2 with
      | false => rfl
      | true =>
        rw [if_pos hgoes] at h
        exact ih (by omega)

theorem value_loop_cut (left : Nat) (s : S) :
    (loop due cut left s).value = (loop due cut' left s).value := by
  induction left generalizing s with
  | zero => rfl
  | succ left ih =>
    cases hdue : due s with
    | none => rw [loop_of_due_none hdue, loop_of_due_none hdue]
    | some turn =>
      rw [loop_of_due_some hdue, loop_of_due_some hdue, value_bind, value_bind]
      split
      . apply ih
      . rfl

theorem value_loop_add_of_continued_eq {left : Nat} {s : S} (h : continued due left s = left)
    (more : Nat) :
    (loop due cut (left + more) s).value =
      (loop due cut'' more (loop due cut' left s).value).value := by
  induction left generalizing s with
  | zero =>
    rw [Nat.zero_add]
    apply value_loop_cut
  | succ left ih =>
    rw [Nat.add_right_comm]
    cases hdue : due s with
    | none => simp [continued_of_due_none hdue] at h
    | some turn =>
      rw [continued_of_due_some hdue] at h
      cases hgoes : turn.value.2 with
      | false => simp [hgoes] at h
      | true =>
        rw [if_pos hgoes] at h
        simp only [loop_of_due_some hdue, value_bind, hgoes, ↓reduceIte]
        exact ih (by omega)

section Observer

variable {observe : Entry σ → Option γ}

theorem seen_loop_cut (hcut : ∀ s, observe (cut s) = none) (hcut' : ∀ s, observe (cut' s) = none)
    (left : Nat) (s : S) :
    (loop due cut left s).seen observe = (loop due cut' left s).seen observe := by
  induction left generalizing s with
  | zero => simp [loop, hcut, hcut']
  | succ left ih =>
    cases hdue : due s with
    | none => rw [loop_of_due_none hdue, loop_of_due_none hdue]
    | some turn =>
      rw [loop_of_due_some hdue, loop_of_due_some hdue, seen_bind, seen_bind]
      split
      . rw [ih]
      . rfl

theorem seen_loop_add_of_continued_eq (hcut : ∀ s, observe (cut s) = none)
    (hcut' : ∀ s, observe (cut' s) = none) (hcut'' : ∀ s, observe (cut'' s) = none) {left : Nat}
    {s : S} (h : continued due left s = left) (more : Nat) :
    (loop due cut (left + more) s).seen observe =
      (loop due cut' left s).seen observe ++
        (loop due cut'' more (loop due cut' left s).value).seen observe := by
  induction left generalizing s with
  | zero =>
    rw [Nat.zero_add, seen_loop_cut hcut hcut'']
    simp [loop, hcut']
  | succ left ih =>
    rw [Nat.add_right_comm]
    cases hdue : due s with
    | none => simp [continued_of_due_none hdue] at h
    | some turn =>
      rw [continued_of_due_some hdue] at h
      cases hgoes : turn.value.2 with
      | false => simp [hgoes] at h
      | true =>
        rw [if_pos hgoes] at h
        simp only [loop_of_due_some hdue, seen_bind, value_bind, hgoes, ↓reduceIte,
          List.append_assoc]
        rw [ih (by omega)]

theorem length_seen_loop_le (hcut : ∀ s, observe (cut s) = none)
    (hturn : ∀ s turn, due s = some turn → (turn.seen observe).length ≤ 1) (left : Nat) (s : S) :
    ((loop due cut left s).seen observe).length ≤ left := by
  induction left generalizing s with
  | zero => simp [loop, hcut]
  | succ left ih =>
    cases hdue : due s with
    | none => simp [loop_of_due_none hdue]
    | some turn =>
      have := hturn s turn hdue
      rw [loop_of_due_some hdue, seen_bind, List.length_append]
      split
      . have := ih turn.value.1
        omega
      . simp only [seen_pure, List.length_nil]
        omega

theorem length_seen_loop (hcut : ∀ s, observe (cut s) = none)
    (hturn : ∀ s turn, due s = some turn → (turn.seen observe).length = turn.value.2.toNat)
    (left : Nat) (s : S) :
    ((loop due cut left s).seen observe).length = continued due left s := by
  induction left generalizing s with
  | zero => simp [loop, continued, hcut]
  | succ left ih =>
    cases hdue : due s with
    | none => simp [loop_of_due_none hdue, continued_of_due_none hdue]
    | some turn =>
      rw [loop_of_due_some hdue, continued_of_due_some hdue, seen_bind, List.length_append,
        hturn s turn hdue]
      cases hgoes : turn.value.2 with
      | false => simp
      | true =>
        simp only [↓reduceIte, ih, Bool.toNat_true]
        omega

end Observer

theorem loop_map {f : S → S}
    (hdue : ∀ s, due (f s) = (due s).map fun turn => (fun r => (f r.1, r.2)) <$> turn)
    (hcut : ∀ s, cut (f s) = cut s) (left : Nat) (s : S) :
    loop due cut left (f s) = f <$> loop due cut left s := by
  induction left generalizing s with
  | zero => simp [loop, hcut]
  | succ left ih =>
    cases hs : due s with
    | none =>
      have hfs : due (f s) = none := by
        rw [hdue, hs, Option.map_none]
      rw [loop_of_due_none hs, loop_of_due_none hfs, map_pure]
    | some turn =>
      have hfs : due (f s) = some ((fun r => (f r.1, r.2)) <$> turn) := by
        rw [hdue, hs, Option.map_some]
      rw [loop_of_due_some hs, loop_of_due_some hfs, bind_map_left, map_bind]
      apply bind_congr_value
      split
      . apply ih
      . rw [map_pure]

theorem continued_map {f : S → S}
    (hdue : ∀ s, due (f s) = (due s).map fun turn => (fun r => (f r.1, r.2)) <$> turn)
    (left : Nat) (s : S) : continued due left (f s) = continued due left s := by
  induction left generalizing s with
  | zero => rfl
  | succ left ih =>
    cases hs : due s with
    | none =>
      have hfs : due (f s) = none := by
        rw [hdue, hs, Option.map_none]
      rw [continued_of_due_none hs, continued_of_due_none hfs]
    | some turn =>
      have hfs : due (f s) = some ((fun r => (f r.1, r.2)) <$> turn) := by
        rw [hdue, hs, Option.map_some]
      rw [continued_of_due_some hs, continued_of_due_some hfs, value_map]
      dsimp only
      rw [ih]

theorem loop_induction {motive : S → Prop}
    (hturn : ∀ s turn, due s = some turn → motive s → motive turn.value.1) (left : Nat) {s : S}
    (h : motive s) : motive (loop due cut left s).value := by
  induction left generalizing s with
  | zero => exact h
  | succ left ih =>
    cases hdue : due s with
    | none => rwa [loop_of_due_none hdue]
    | some turn =>
      rw [loop_of_due_some hdue, value_bind]
      split
      . exact ih (hturn s turn hdue h)
      . exact hturn s turn hdue h

end Traced

end Sequencer
