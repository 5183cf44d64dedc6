import Sequencer.Trace

/-!
What an observer sees of the entries that an operation reports. It sees of a sequence of operations
what it sees of each of them.
-/

namespace Sequencer

def Entry.besidesLimits? {σ : Type} : Entry σ → Option (Entry σ)
  | .event (.transitionLimitReached _) | .event (.reentryLimitReached _ _) => none
  | entry => some entry

theorem append_eq_append_cons {α : Type} {xs ys before after : List α} {x : α}
    (h : xs ++ ys = before ++ x :: after) :
    (∃ rest, before = xs ++ rest ∧ ys = rest ++ x :: after) ∨
    ∃ rest, xs = before ++ x :: rest ∧ after = rest ++ ys := by
  rcases List.append_eq_append_iff.mp h with ⟨rest, hbefore, hys⟩ | ⟨rest, hxs, hrest⟩
  . exact Or.inl ⟨rest, hbefore, hys⟩
  . cases rest with
    | nil => exact Or.inl ⟨[], by simpa using hxs.symm, by simpa using hrest.symm⟩
    | cons y rest =>
      rw [List.cons_append, List.cons.injEq] at hrest
      obtain ⟨rfl, hafter⟩ := hrest
      exact Or.inr ⟨rest, hxs, hafter⟩

theorem eq_singleton_of_append_cons {α : Type} {before after : List α} {x y : α}
    (h : before ++ x :: after = [y]) : before = [] ∧ x = y := by
  cases before with
  | nil => simpa using (List.cons.inj h).1
  | cons first rest => simp at h

namespace Traced

variable {σ α β γ : Type}

@[simp]
theorem value_map (x : Traced σ α) (f : α → β) : (f <$> x).value = f x.value := rfl

@[simp]
theorem entries_map (x : Traced σ α) (f : α → β) : (f <$> x).entries = x.entries := by
  rw [← bind_pure_comp, entries_bind, entries_pure, List.append_nil]

theorem bind_congr_value {x : Traced σ α} {f g : α → Traced σ β} (h : f x.value = g x.value) :
    x >>= f = x >>= g := by
  ext1
  . rw [value_bind, value_bind, h]
  . rw [entries_bind, entries_bind, h]

def seen (observe : Entry σ → Option γ) (x : Traced σ α) : List γ :=
  x.entries.filterMap observe

variable (observe : Entry σ → Option γ)

@[simp]
theorem seen_pure (x : α) : (pure x : Traced σ α).seen observe = [] := rfl

@[simp]
theorem seen_bind (x : Traced σ α) (f : α → Traced σ β) :
    (x >>= f).seen observe = x.seen observe ++ (f x.value).seen observe :=
  List.filterMap_append

@[simp]
theorem seen_map (x : Traced σ α) (f : α → β) : (f <$> x).seen observe = x.seen observe := by
  rw [← bind_pure_comp, seen_bind, seen_pure, List.append_nil]

@[simp]
theorem seen_emit (entry : Entry σ) : (emit entry).seen observe = (observe entry).toList := by
  simp only [seen, entries_emit, List.filterMap_cons, List.filterMap_nil]
  cases observe entry <;> rfl

@[simp]
theorem seen_log (event : Event) : (log event).seen observe = (observe (.event event)).toList :=
  seen_emit observe (.event event)

section Agree

variable {α' β' : Type}

structure Agree (R : α → α' → Prop) (x : Traced σ α) (y : Traced σ α') : Prop where
  value : R x.value y.value
  entries : x.entries = y.entries

namespace Agree

variable {R : α → α' → Prop} {S : β → β' → Prop}

theorem pure {a : α} {b : α'} (h : R a b) :
    Agree R (Pure.pure a : Traced σ α) (Pure.pure b) :=
  ⟨h, rfl⟩

theorem bind {x : Traced σ α} {y : Traced σ α'} {f : α → Traced σ β} {g : α' → Traced σ β'}
    (hxy : Agree R x y) (hfg : ∀ a b, R a b → Agree S (f a) (g b)) :
    Agree S (x >>= f) (y >>= g) := by
  have hvalue := hfg x.value y.value hxy.value
  constructor
  . exact hvalue.value
  . rw [entries_bind, entries_bind, hxy.entries, hvalue.entries]

theorem after (x : Traced σ α) {f : α → Traced σ β} {g : α → Traced σ β'}
    (h : Agree S (f x.value) (g x.value)) : Agree S (x >>= f) (x >>= g) := by
  constructor
  . exact h.value
  . rw [entries_bind, entries_bind, h.entries]

theorem map {x : Traced σ α} {f : α → β} {R : α → β → Prop} (h : R x.value (f x.value)) :
    Agree R x (f <$> x) :=
  ⟨h, (entries_map x f).symm⟩

end Agree

end Agree

end Traced

end Sequencer
