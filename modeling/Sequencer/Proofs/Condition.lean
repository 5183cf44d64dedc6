import Sequencer.Condition

/-!
What a condition depends on. Its answer is a matter of the levels of the statuses that it asks for:
neither the on bits nor the values nor any other status can change it.
-/

namespace Sequencer

namespace Condition

mutual

def names : Condition → List String
  | .const _ => []
  | .not inner => names inner
  | .anyOf children => namesAll children
  | .allOf children => namesAll children
  | .hasLevel name _ => [name]

def namesAll : List Condition → List String
  | [] => []
  | c :: cs => names c ++ namesAll cs

end

theorem mem_namesAll {name : String} {cs : List Condition} :
    name ∈ namesAll cs ↔ ∃ c ∈ cs, name ∈ c.names := by
  induction cs with
  | nil => simp [namesAll]
  | cons c cs ih => simp [namesAll, ih]

theorem evaluateAny_congr {r r' : Register} {cs : List Condition}
    (h : ∀ c ∈ cs, evaluate r c = evaluate r' c) : evaluateAny r cs = evaluateAny r' cs := by
  induction cs with
  | nil => rfl
  | cons c cs ih =>
    rw [List.forall_mem_cons] at h
    rw [evaluateAny, evaluateAny, h.1, ih h.2]

theorem evaluateAll_congr {r r' : Register} {cs : List Condition}
    (h : ∀ c ∈ cs, evaluate r c = evaluate r' c) : evaluateAll r cs = evaluateAll r' cs := by
  induction cs with
  | nil => rfl
  | cons c cs ih =>
    rw [List.forall_mem_cons] at h
    rw [evaluateAll, evaluateAll, h.1, ih h.2]

theorem tree_induction {motive : Condition → Prop} (const : ∀ value, motive (.const value))
    (not : ∀ inner, motive inner → motive (.not inner))
    (anyOf : ∀ children, (∀ c ∈ children, motive c) → motive (.anyOf children))
    (allOf : ∀ children, (∀ c ∈ children, motive c) → motive (.allOf children))
    (hasLevel : ∀ name level, motive (.hasLevel name level)) : ∀ c, motive c
  | .const value => const value
  | .not inner => not inner (tree_induction const not anyOf allOf hasLevel inner)
  | .anyOf children => anyOf children fun c _ => tree_induction const not anyOf allOf hasLevel c
  | .allOf children => allOf children fun c _ => tree_induction const not anyOf allOf hasLevel c
  | .hasLevel name level => hasLevel name level

/--
Two registers in which every status that a condition asks for has the same level are the same to it,
whatever else is in them.
-/
theorem evaluate_eq_of_levels_eq {c : Condition} {r r' : Register}
    (h : ∀ name ∈ c.names, (r.status name).level = (r'.status name).level) :
    c.evaluate r = c.evaluate r' := by
  induction c using tree_induction with
  | const value => rfl
  | not inner ih =>
    rw [names] at h
    rw [evaluate, evaluate, ih h]
  | anyOf children ih =>
    simp only [names, mem_namesAll] at h
    rw [evaluate, evaluate]
    apply evaluateAny_congr
    intro c hc
    exact ih c hc fun name hname => h name ⟨c, hc, hname⟩
  | allOf children ih =>
    simp only [names, mem_namesAll] at h
    rw [evaluate, evaluate]
    apply evaluateAll_congr
    intro c hc
    exact ih c hc fun name hname => h name ⟨c, hc, hname⟩
  | hasLevel name level =>
    rw [evaluate, evaluate, h name (by simp [names])]

def guarded : Condition :=
  .anyOf [.not (.hasLevel "door" 2), .allOf [.hasLevel "pump" 1, .not (.anyOf []),
    .hasLevel "spare" 0]]

theorem evaluate_eq_of_levels_eq_guarded :
    let r := (Register.empty.setStatus 2 "door" false).setStatus 1 "pump" true
    let r' := ((((Register.empty.setStatus 0 "spare" true).setStatus 1 "pump" false).setStatus 2
      "door" true).setStatus 7 "lamp" true).putValue (.bool true) "door" "global" true
    guarded.names = ["door", "pump", "spare"] ∧
      (∀ name ∈ guarded.names, (r.status name).level = (r'.status name).level) ∧
      guarded.evaluate r = true ∧ guarded.evaluate r' = true := by
  intro r r'
  have hlevels : ∀ name ∈ guarded.names, (r.status name).level = (r'.status name).level := by
    decide +kernel
  have hholds : guarded.evaluate r = true := by
    decide +kernel
  refine ⟨rfl, hlevels, hholds, ?_⟩
  rw [← evaluate_eq_of_levels_eq hlevels]
  exact hholds

end Condition

end Sequencer
