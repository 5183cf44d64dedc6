import Sequencer.Proofs.Manager.Run
import Sequencer.Step.Builtin

/-!
What a reference to a step stands for. A lookup first lays the steps out, so it goes by the names of
freshly generated steps. A removal does not, so it goes by the names that are known by then: those
of the steps that were generated last, or of the generators themselves. The two agree on every key,
and on the names that no generation changes.
-/

namespace Sequencer

/-- Whatever step is generated next, the entry goes by the same name. -/
def StepEntry.KeepsName {σ : Type} (entry : StepEntry σ) : Prop :=
  match entry.source with
  | .step _ => True
  | .generator generator =>
    ∀ world, (generator.generate world).1.name.or generator.name = entry.name?

namespace Manager

variable {σ : Type} {m : Manager σ}

/-- The removal takes the step under a key away and clears the cursor, or it does nothing at all. -/
def Removes (m : Manager σ) (target : StepRef) : Option StepKey → Prop
  | none => (m.remove target).value = (none, m)
  | some key => ∃ entry, m.steps.get? key = some entry ∧
      (m.remove target).value =
        (some entry.source, { m with steps := m.steps.erase key, tree := none, current := none })

structure Finds (m : Manager σ) (target : StepRef) (world : σ) (found : Option StepKey) :
    Prop where
  refers : (m.ensureTree world).value.1.Refers target found
  step : (m.getStep target world).value.1 = found.bind (m.ensureTree world).value.1.stepAt?
  isSome : (m.getStep target world).value.1.isSome = found.isSome

section Lookup

theorem Faithful.refers_iff (h : m.Faithful) (target : StepRef) (found : Option StepKey) :
    m.Refers target found ↔ found = m.keyOf? target := by
  constructor
  . exact fun hfound => hfound.unique (h.refers_keyOf? target)
  . rintro rfl
    exact h.refers_keyOf? target

theorem removes_keyOf? (m : Manager σ) (target : StepRef) :
    m.Removes target (m.keyOf? target) := by
  cases hkey : m.keyOf? target with
  | none =>
    show (m.remove target).value = (none, m)
    rw [remove, hkey]
    rfl
  | some key =>
    cases hentry : m.steps.get? key with
    | none => exact absurd (mem_keys_of_keyOf? hkey) ((KeyMap.get?_eq_none_iff _ _).mp hentry)
    | some entry =>
      refine ⟨entry, hentry, ?_⟩
      rw [remove, hkey, Option.bind_some, hentry]
      rfl

theorem Removes.unique {target : StepRef} {a b : Option StepKey} (ha : m.Removes target a)
    (hb : m.Removes target b) : a = b := by
  cases a with
  | none =>
    have ha : (m.remove target).value = (none, m) := ha
    cases b with
    | none => rfl
    | some key =>
      obtain ⟨_, _, hb⟩ := hb
      simp [ha] at hb
  | some key =>
    obtain ⟨entry, hentry, ha⟩ := ha
    cases b with
    | none =>
      have hb : (m.remove target).value = (none, m) := hb
      simp [ha] at hb
    | some other =>
      obtain ⟨_, _, hb⟩ := hb
      have herase : m.steps.erase key = m.steps.erase other :=
        congrArg (·.2.steps) (ha.symm.trans hb)
      have hstored : key ∈ m.steps.keys := List.mem_map_of_mem (KeyMap.mem_of_get? hentry)
      by_contra hne
      -- with another key removed this one would still be there
      have hleft : key ∈ (m.steps.erase other).keys := by
        rw [KeyMap.mem_keys_erase]
        exact ⟨hstored, fun heq => hne (congrArg some heq)⟩
      rw [← herase, KeyMap.mem_keys_erase] at hleft
      exact hleft.2 rfl

theorem Faithful.removes_iff (h : m.Faithful) (target : StepRef) (found : Option StepKey) :
    m.Removes target found ↔ m.Refers target found := by
  rw [h.refers_iff]
  constructor
  . exact fun hremoves => hremoves.unique (removes_keyOf? m target)
  . rintro rfl
    exact removes_keyOf? m target

theorem Faithful.finds_iff (h : m.Faithful) (target : StepRef) (world : σ)
    (found : Option StepKey) :
    m.Finds target world found ↔ (m.ensureTree world).value.1.Refers target found := by
  constructor
  . exact Finds.refers
  . intro hrefers
    have hlaid := h.ensureTree world
    have hkey := (hlaid.refers_iff target found).mp hrefers
    have hstep : (m.getStep target world).value.1 =
        found.bind (m.ensureTree world).value.1.stepAt? := by
      rw [hkey]
      rfl
    refine ⟨hrefers, hstep, ?_⟩
    rw [hstep]
    cases found with
    | none => rfl
    | some key =>
      exact hlaid.isSome_stepAt? (isSome_tree_ensureTree m world) (mem_keys_of_keyOf? hkey.symm)

end Lookup

section SameNames

theorem names_generateAll (world : σ) {entries : List (StepKey × StepEntry σ)}
    (hkeeps : ∀ pair ∈ entries, pair.2.KeepsName) :
    (generateAll world entries).value.1.map (fun pair => (pair.1, pair.2.name?)) =
      entries.map fun pair => (pair.1, pair.2.name?) := by
  induction entries generalizing world with
  | nil => rfl
  | cons pair rest ih =>
    obtain ⟨key, entry⟩ := pair
    rw [List.forall_mem_cons] at hkeeps
    obtain ⟨hentry, hrest⟩ := hkeeps
    unfold generateAll
    split
    . simp only [Traced.value_bind, Traced.value_pure, List.map_cons, ih _ hrest]
    . next generator hsource =>
      simp only [StepEntry.KeepsName, hsource] at hentry
      have hname : ({ entry with generated := some (generator.generate world).1 } :
          StepEntry σ).name? = entry.name? := by
        rw [← hentry world]
        simp [StepEntry.name?, StepEntry.step?, hsource, StepSource.name]
      simp only [Traced.value_bind, Traced.value_pure, List.map_cons, ih _ hrest, hname]

theorem keyOf?_ensureTree (m : Manager σ) (target : StepRef) (world : σ)
    (h : (∃ key, target = .key key) ∨ m.tree.isSome = true ∨
      ∀ pair ∈ m.steps.entries, pair.2.KeepsName) :
    (m.ensureTree world).value.1.keyOf? target = m.keyOf? target := by
  unfold ensureTree
  cases htree : m.tree with
  -- nothing is generated, so every step goes by the name it had
  | some tree => rfl
  | none =>
    rcases h with ⟨key, rfl⟩ | hsome | hkeeps
    . have hcontains : (m.rebuild world).value.1.steps.contains key = m.steps.contains key := by
        rw [Bool.eq_iff_iff, KeyMap.contains_iff, KeyMap.contains_iff, keys_rebuild]
      rw [keyOf?, keyOf?, hcontains]
    . simp [htree] at hsome
    . exact keyOf?_congr (names_generateAll world hkeeps) target

end SameNames

/--
A removal and a lookup by the same reference always agree when it is a key, when the steps are laid
out, and when no generation changes a name. Else the one goes by the names before the steps are laid
out anew and the other by those after.
-/
theorem Reachable.removes_iff_finds (h : m.Reachable) (target : StepRef) (world : σ) :
    (∃ removed, m.Removes target removed) ∧ (∃ found, m.Finds target world found) ∧
    (∀ removed, m.Removes target removed ↔ m.Refers target removed) ∧
    (∀ found, m.Finds target world found ↔
      (m.ensureTree world).value.1.Refers target found) ∧
    ((∃ key, target = .key key) ∨ m.tree.isSome = true ∨
        (∀ pair ∈ m.steps.entries, pair.2.KeepsName) →
      ∀ found, m.Removes target found ↔ m.Finds target world found) := by
  have hlaid := h.faithful.ensureTree world
  have hremoves := h.faithful.removes_iff target
  have hfinds := h.faithful.finds_iff target world
  refine ⟨⟨_, removes_keyOf? m target⟩, ⟨_, (hfinds _).mpr (hlaid.refers_keyOf? target)⟩, hremoves,
    hfinds, ?_⟩
  intro hsettled found
  rw [hremoves, hfinds, h.faithful.refers_iff, hlaid.refers_iff,
    keyOf?_ensureTree m target world hsettled]

/-- The generator has no name of its own, so before it has made its step nothing goes by its key. -/
def unnamed : Manager Unit :=
  (Manager.empty .default)
    |>.after (.insert (.generator ⟨some 1, none, fun world => (.marker "x" (some 1), world)⟩) none)
    |>.after (.insert (.step (.marker "x" (some 2))) none)

/-- The second step is removed, although the first one is the one that a lookup finds. -/
theorem removes_other_than_finds_unnamed :
    unnamed.Reachable ∧ unnamed.Removes (.name "x") (some 2) ∧
    unnamed.Finds (.name "x") () (some 1) ∧
    ¬∀ found, unnamed.Removes (.name "x") found ↔ unnamed.Finds (.name "x") () found := by
  have hreachable : unnamed.Reachable := ((Reachable.empty _).after _).after _
  have hremoves : unnamed.Removes (.name "x") (some 2) :=
    (hreachable.faithful.removes_iff _ _).mpr
      ((hreachable.faithful.refers_iff _ _).mpr (by decide +kernel))
  have hfinds : unnamed.Finds (.name "x") () (some 1) :=
    (hreachable.faithful.finds_iff _ _ _).mpr
      (((hreachable.faithful.ensureTree ()).refers_iff _ _).mpr (by decide +kernel))
  refine ⟨hreachable, hremoves, hfinds, ?_⟩
  intro hagree
  have hsame := hremoves.unique ((hagree (some 1)).mpr hfinds)
  revert hsame
  decide

theorem Reachable.removes_iff_finds_unnamed :
    let laid := unnamed.after (.needsProcess ())
    laid.Reachable ∧ laid.Removes (.name "x") (some 1) ∧ laid.Finds (.name "x") () (some 1) := by
  intro laid
  have hreachable : laid.Reachable := (((Reachable.empty _).after _).after _).after _
  obtain ⟨_, _, hremoves, _, hagree⟩ := Reachable.removes_iff_finds hreachable (.name "x") ()
  have hremoved : laid.Removes (.name "x") (some 1) :=
    (hremoves _).mpr ((hreachable.faithful.refers_iff _ _).mpr (by decide +kernel))
  exact ⟨hreachable, hremoved, (hagree (Or.inr (Or.inl rfl)) _).mp hremoved⟩

end Manager

end Sequencer
