import Sequencer.Proofs.Manager.Insertion
import Sequencer.Proofs.Manager.Moves

/-!
The keys that a manager chooses. The next free key is above all keys that are stored, except that it
stops at the greatest key there is. So a step that is given the next free key replaces another one
exactly when that other one has the greatest key.
-/

namespace Sequencer

namespace KeyMap

variable {α : Type}

theorem size_insert {m : KeyMap α} (h : m.keys.Pairwise (· < ·)) (key : StepKey) (value : α) :
    (m.insert key value).size = if key ∈ m.keys then m.size else m.size + 1 := by
  have hnodup := nodup_of_ascending h
  have hinserted := nodup_of_ascending (ascending_insert h key value)
  simp only [size_eq]
  split
  . next hmem =>
    apply List.Perm.length_eq
    rw [List.perm_ext_iff_of_nodup hinserted hnodup]
    intro other
    rw [mem_keys_insert, or_iff_right_of_imp]
    rintro rfl
    exact hmem
  . next hfree =>
    have hperm : (m.insert key value).keys.Perm (key :: m.keys) := by
      rw [List.perm_ext_iff_of_nodup hinserted (List.nodup_cons.mpr ⟨hfree, hnodup⟩)]
      intro other
      rw [mem_keys_insert, List.mem_cons]
    rw [hperm.length_eq, List.length_cons]

end KeyMap

namespace Manager

variable {σ : Type}

theorem lt_keyAfter {key other : StepKey} (h : other ≤ key) :
    other < keyAfter key ∨ keyAfter key = Int64.maxValue := by
  unfold keyAfter
  split
  . next hgreatest => exact Or.inr hgreatest
  . next hne =>
    refine Or.inl (Int64.lt_of_le_of_lt h ?_)
    rw [← Int64.toInt_inj, Int64.toInt_maxValue] at hne
    have := key.le_toInt
    have := key.toInt_lt
    rw [Int64.lt_iff_toInt_lt, Int64.toInt_add, Int64.toInt_one,
      Int.bmod_eq_of_le (by omega) (by omega)]
    omega

/-- The next free key is above all that are stored, unless it is the greatest key. -/
def Counted (m : Manager σ) : Prop :=
  ∀ key ∈ m.steps.keys, key < m.nextKey ∨ m.nextKey = Int64.maxValue

theorem Counted.insert {m : Manager σ} (h : m.Counted) (source : StepSource σ)
    (data : Option StepData) : (m.insert source data).value.2.Counted := by
  intro other hother
  rw [value_insert] at hother ⊢
  rw [KeyMap.mem_keys_insert] at hother
  apply lt_keyAfter
  generalize source.key.getD m.nextKey = key at hother ⊢
  rcases hother with rfl | hother
  . split
    . apply Int64.le_refl
    . next hlt => exact Int64.not_lt.mp hlt
  . have hle : other ≤ m.nextKey := by
      rcases h other hother with hlt | hgreatest
      . exact Int64.le_of_lt hlt
      . rw [hgreatest]
        apply Int64.le_maxValue
    split
    . next hlt => exact Int64.le_of_lt (Int64.lt_of_le_of_lt hle hlt)
    . exact hle

theorem Move.counted {s s' : Manager σ × σ} {moments : List (Moment σ)} (h : Move s moments s')
    (hs : s.1.Counted) : s'.1.Counted := by
  cases h with
  | insert m world source data => exact hs.insert source data
  | remove hkey world =>
    intro other hother
    exact hs other ((KeyMap.mem_keys_erase _ _ _).mp hother).1
  | rebuild m world =>
    intro other hother
    rw [keys_rebuild] at hother
    exact hs other hother
  | process hkey hstep env hleft =>
    intro other hother
    rw [KeyMap.keys_modify] at hother
    exact hs other hother
  | enter | setLoop | edit | willEnd | didBegin | reset | shift | suspend => exact hs

theorem Path.counted {s s' : Manager σ × σ} {moments : List (Moment σ)} (h : Path s moments s')
    (hs : s.1.Counted) : s'.1.Counted := by
  induction h with
  | refl => exact hs
  | tail _ hmove ih => exact hmove.counted ih

theorem Faithful.counted_after {m : Manager σ} (h : m.Faithful) (hm : m.Counted)
    (op : Operation σ) : (m.after op).Counted := by
  -- an operation that is given no world takes no path, and only stores or removes a step at most
  have hpath (world : σ) : (m.after op).Counted := by
    obtain ⟨_, _, hpath⟩ := h.amounts_perform op world
    exact hpath.counted hm
  cases op with
  | insert source data => exact hm.insert source data
  | remove target =>
    simp only [after, Manager.remove]
    split
    . exact hm
    . intro other hother
      exact hm other ((KeyMap.mem_keys_erase _ _ _).mp hother).1
  | setLoop | editContext => exact hm
  | needsProcess world | getStep _ world | initialStep world | reset world | suspend world =>
    exact hpath world
  | restart _ env | process env => exact hpath env.world

theorem Reachable.counted {m : Manager σ} (h : m.Reachable) : m.Counted := by
  induction h with
  | empty config => simp [Counted, Manager.empty, KeyMap.empty, KeyMap.keys]
  | after hm op ih => exact hm.faithful.counted_after ih op

theorem Counted.nextKey_mem_iff {m : Manager σ} (h : m.Counted) :
    m.nextKey ∈ m.steps.keys ↔ Int64.maxValue ∈ m.steps.keys := by
  constructor
  . intro hmem
    rcases h _ hmem with hlt | hgreatest
    . simp at hlt
    . rwa [hgreatest] at hmem
  . intro hmem
    rcases h _ hmem with hlt | hgreatest
    . exact absurd hlt (Int64.not_lt.mpr (Int64.le_maxValue _))
    . rwa [hgreatest]

/--
A step without a key of its own is stored under a key that is free, unless another step has the
greatest key. If the key is free then there is one step more and those that were stored before are
as they were. If it is not, it is the greatest key, and the step replaces the one that had it.
-/
theorem Reachable.insert_free_iff {m : Manager σ} (h : m.Reachable) {source : StepSource σ}
    (hsource : source.key = none) (data : Option StepData) :
    let key := (m.insert source data).value.1
    let m' := (m.insert source data).value.2
    m'.steps.get? key = some { source, generated := none, data } ∧
    (∀ other, other ≠ key → m'.steps.get? other = m.steps.get? other) ∧
    (key ∉ m.steps.keys ↔ Int64.maxValue ∉ m.steps.keys) ∧
    (m'.steps.size = m.steps.size + 1 ↔ Int64.maxValue ∉ m.steps.keys) ∧
    (Int64.maxValue ∉ m.steps.keys → ∀ other entry, m.steps.get? other = some entry →
      m'.steps.get? other = some entry) ∧
    (Int64.maxValue ∈ m.steps.keys → key = Int64.maxValue ∧ m'.steps.size = m.steps.size) := by
  have hkey : (m.insert source data).value.1 = m.nextKey := by
    simp [Manager.insert, hsource]
  have hsteps : (m.insert source data).value.2.steps =
      m.steps.insert m.nextKey { source, generated := none, data } := by
    rw [value_insert, hsource]
    rfl
  have hgreatest := h.counted.nextKey_mem_iff
  have hsize := KeyMap.size_insert h.faithful.ascending m.nextKey
    { source, generated := none, data }
  dsimp only
  rw [hkey, hsteps]
  refine ⟨KeyMap.get?_insert_self _ _ _, fun other hne => KeyMap.get?_insert_of_ne _ hne _,
    not_congr hgreatest, ?_, ?_, ?_⟩
  . rw [hsize, ← hgreatest]
    split <;> simp_all
  . intro hfree other entry hentry
    rw [KeyMap.get?_insert_of_ne _ _ _, hentry]
    rintro rfl
    rw [← hgreatest, ← KeyMap.get?_eq_none_iff, hentry] at hfree
    simp at hfree
  . intro hmem
    rw [hsize, if_pos (hgreatest.mpr hmem)]
    rcases h.counted _ hmem with hlt | heq
    . exact absurd hlt (Int64.not_lt.mpr (Int64.le_maxValue _))
    . exact ⟨heq, rfl⟩

def marked (keys : List (Option StepKey)) : Manager Unit :=
  keys.foldl (fun m key => m.after (.insert (.step (.marker "m" key)) none)) (empty .default)

theorem reachable_marked (keys : List (Option StepKey)) : (marked keys).Reachable := by
  unfold marked
  generalize hstart : (empty .default : Manager Unit) = start
  have h : start.Reachable := hstart ▸ .empty .default
  clear hstart
  induction keys generalizing start with
  | nil => exact h
  | cons key rest ih => exact ih _ (h.after _)

theorem Reachable.insert_free_marked :
    let m := marked [some Int64.minValue, some (Int64.maxValue - 1)]
    let inserted := (m.insert (.step (.marker "m" none)) none).value
    m.Reachable ∧ (StepSource.step (.marker "m" none) : StepSource Unit).key = none ∧
      inserted.1 = Int64.maxValue ∧ inserted.1 ∉ m.steps.keys ∧
      inserted.2.steps.size = m.steps.size + 1 := by
  intro m inserted
  have hm : m.Reachable := reachable_marked _
  have hsource : (StepSource.step (.marker "m" none) : StepSource Unit).key = none := rfl
  obtain ⟨_, _, hfree, hsize, _, _⟩ := Reachable.insert_free_iff hm hsource none
  have hgreatest : Int64.maxValue ∉ m.steps.keys := by
    decide +kernel
  exact ⟨hm, hsource, by decide +kernel, hfree.mpr hgreatest, hsize.mpr hgreatest⟩

/-- The step with the greatest key is lost when another one is stored without a key. -/
theorem insert_replaces_greatest :
    let m := marked [some Int64.maxValue]
    let inserted := (m.insert (.step (.marker "next" none)) none).value
    m.Reachable ∧ (StepSource.step (.marker "next" none) : StepSource Unit).key = none ∧
      inserted.1 ∈ m.steps.keys ∧ inserted.2.steps.size = m.steps.size ∧
      (m.stepAt? inserted.1).bind (·.name) = some "m" ∧
      (inserted.2.stepAt? inserted.1).bind (·.name) = some "next" := by
  exact ⟨reachable_marked _, rfl, by decide +kernel, by decide +kernel, by decide +kernel,
    by decide +kernel⟩

end Manager

end Sequencer
