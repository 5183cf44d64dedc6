import Mathlib.Data.List.Infix
import Sequencer.Proofs.Workflow.Removal

/-!
The numbers that instructions are shown under. One that is given no number takes the count of those
that are registered before it. So a number is a place in the list, and after a removal the next
instruction may be given the place that another one was given before.
-/

namespace Sequencer

namespace Workflow

variable {σ : Type}

def numbers (w : Workflow σ) : List Int64 :=
  w.registered.map (·.number)

def Operation.Unnumbered : Operation σ → Prop
  | .add _ number _ | .append _ number _ => number = none
  | _ => True

def Registers (w : Workflow σ) (op : Operation σ) : Prop :=
  ∃ id, (w.perform op).value.1 = .registered (.ok id)

/-- The number that the next instruction takes is one that a registered instruction has. -/
def Crowded (w : Workflow σ) : Prop :=
  Int64.ofNat w.registered.length ∈ w.numbers

inductive Relists (w : Workflow σ) (op : Operation σ) : List Registration → Prop where
  | put (hregisters : w.Registers op) (id : InstructionId) (name : Option String) :
      Relists w op
        (w.registered ++ [{ id, number := Int64.ofNat w.registered.length, name }])
  | drop (hregisters : ¬w.Registers op) {registered : List Registration}
      (hsub : registered.Sublist w.registered) : Relists w op registered

theorem registered_ensureLinked (w : Workflow σ) :
    w.ensureLinked.value.2.registered = w.registered := by
  unfold ensureLinked
  split
  . rw [value_link]
    split <;> rfl
  . rfl

theorem registered_process (w : Workflow σ) (clock : Clock) (env : Env σ) :
    (w.process clock env).value.workflow.registered = w.registered := by
  have hlinked := registered_ensureLinked w
  rw [value_process]
  split
  . split
    . next heq => simpa [heq] using hlinked
    . next linked heq =>
      rw [heq] at hlinked
      exact (sameProgram_run _ _ _ _ linked _).registered.trans hlinked
  . rfl

theorem relists_of_add {w : Workflow σ} {op : Operation σ} {source : InstructionSource σ}
    {name : Option String}
    (hanswer : (w.perform op).value.1 = .registered (w.add source none name).value.1) :
    w.Relists op (w.add source none name).value.2.registered := by
  obtain ⟨w', hw', ⟨fault, hvalue⟩ | ⟨id, _, _, hvalue⟩⟩ := add_cases w source none name
  all_goals
    have hregistered : w'.registered = w.registered := by
      rcases hw' with rfl | ⟨_, rfl⟩ <;> rfl
    rw [hvalue] at hanswer ⊢
  . apply Relists.drop
    . rintro ⟨id, hid⟩
      simp [hanswer] at hid
    . rw [hregistered]
  . simp only [register, hregistered, Option.getD_none]
    exact Relists.put ⟨id, hanswer⟩ id name

theorem relists_after (w : Workflow σ) {op : Operation σ} (hop : op.Unnumbered) :
    w.Relists op (w.after op).registered := by
  have hdrop (hother : ∀ result, (w.perform op).value.1 ≠ .registered result)
      (hsub : (w.after op).registered.Sublist w.registered) :
      w.Relists op (w.after op).registered :=
    .drop (fun ⟨id, hid⟩ => hother (.ok id) hid) hsub
  cases op with
  | add source number name =>
    cases hop
    exact relists_of_add rfl
  | append source number name =>
    cases hop
    obtain ⟨hresult, hregistered⟩ := w.append_eq_add source none name
    rw [after, hregistered]
    apply relists_of_add
    rw [← hresult]
    rfl
  | remove selector =>
    apply hdrop (by simp [perform])
    simp only [after, Workflow.remove]
    split
    . exact List.Sublist.refl _
    . exact List.eraseP_sublist
  | removeAll => exact hdrop (by simp [perform]) (List.nil_sublist _)
  | create instruction => exact hdrop (by simp [perform]) (List.Sublist.refl _)
  | enable now =>
    apply hdrop (by simp [perform])
    rw [after, (sameProgram_enable w now).registered]
  | disable =>
    apply hdrop (by simp [perform])
    rw [after, (sameProgram_disable w).registered]
  | process clock env =>
    apply hdrop (by simp [perform])
    rw [after, registered_process]
  | releaseFailure instruction =>
    apply hdrop (by simp [perform])
    rw [after, (sameProgram_releaseFailure w instruction).registered]

theorem Relists.nodup_iff {w : Workflow σ} {op : Operation σ} {registered : List Registration}
    (h : w.Relists op registered) (hw : w.numbers.Nodup) :
    (registered.map (·.number)).Nodup ↔ (w.Registers op → ¬w.Crowded) := by
  cases h with
  | put hregisters id name =>
    rw [List.map_append, List.map_singleton, ← List.concat_eq_append, List.nodup_concat]
    exact ⟨fun hnodup _ => hnodup.1, fun hfree => ⟨hfree hregisters, hw⟩⟩
  | drop hregisters hsub =>
    exact ⟨fun _ hop => absurd hop hregisters, fun _ => (hsub.map _).nodup hw⟩

/-- A number stands for the instruction that has it: it finds it, and removes it and no other. -/
def Identifying (w : Workflow σ) : Prop :=
  ∀ before entry after, w.registered = before ++ entry :: after →
    w.findNumber? entry.number = some entry.id ∧
      (w.remove (.number entry.number)).value =
        (true, { w with registered := before ++ after, linksStale := true })

theorem Rooted.identifying_iff {w : Workflow σ} (h : w.Rooted) :
    w.Identifying ↔ w.numbers.Nodup := by
  constructor
  . intro hidentifying
    apply List.Nodup.map_on _ (h.distinct.of_map _)
    intro a ha b hb hnumber
    have hfind {entry : Registration} (hentry : entry ∈ w.registered) :
        w.findNumber? entry.number = some entry.id := by
      obtain ⟨before, after, hregistered⟩ := List.append_of_mem hentry
      exact (hidentifying before entry after hregistered).1
    have hid := hfind ha
    rw [hnumber, hfind hb, Option.some.injEq] at hid
    exact List.inj_on_of_nodup_map h.distinct ha hb hid.symm
  . intro hnodup before entry after hregistered
    have hfind : w.findNumber? entry.number = some entry.id := by
      rw [numbers, hregistered, List.map_append, List.nodup_append] at hnodup
      have hbefore : ∀ other ∈ before, ¬decide (other.number = entry.number) = true := by
        intro other hother
        simpa using hnodup.2.2 _ (List.mem_map_of_mem hother) _ List.mem_cons_self
      rw [findNumber?, hregistered, List.find?_append, List.find?_eq_none.mpr hbefore]
      simp
    exact ⟨hfind, h.value_remove before after hregistered hfind⟩

/--
Where no numbers are given, they stay all different exactly as long as no instruction is registered
while another one has the number that is next, the count of those on the list. And exactly when they
are all different each of them finds its instruction, and removes it and no other.
-/
theorem numbers_distinct_iff (id : Nat) (config : EngineConfig) {ops : List (Operation σ)}
    (hops : ∀ op ∈ ops, op.Unnumbered) :
    let start : Workflow σ := .empty id config
    ((∀ before, before <+: ops → (start.carryOut before).numbers.Nodup) ↔
      ∀ before op, before ++ [op] <+: ops → (start.carryOut before).Registers op →
        ¬(start.carryOut before).Crowded) ∧
    ∀ before, before <+: ops →
      ((start.carryOut before).Identifying ↔ (start.carryOut before).numbers.Nodup) := by
  intro start
  have hafter {before : List (Operation σ)} {op : Operation σ} (hinitial : before ++ [op] <+: ops) :
      (start.carryOut before).Relists op (start.carryOut (before ++ [op])).registered := by
    rw [carryOut_concat]
    exact relists_after _ (hops op (hinitial.subset (by simp)))
  have hinit {before : List (Operation σ)} {op : Operation σ} (hinitial : before ++ [op] <+: ops) :
      before <+: ops :=
    (List.prefix_append before [op]).trans hinitial
  refine ⟨⟨?_, ?_⟩, ?_⟩
  . intro hnodup before op hinitial
    rw [← (hafter hinitial).nodup_iff (hnodup before (hinit hinitial))]
    exact hnodup _ hinitial
  . intro hfree before hbefore
    induction before using List.reverseRecOn with
    | nil => exact List.nodup_nil
    | append_singleton before op ih =>
      exact ((hafter hbefore).nodup_iff (ih (hinit hbefore))).mpr (hfree before op hbefore)
  . intro before _
    exact ((Reachable.empty id config).carryOut before).rooted.identifying_iff

def replaced : List (Operation Unit) :=
  [.append (.new (.label "a")) none none, .add (.new (.label "b")) none (some "second"),
    .append (.new (.label "c")) none none, .remove (.name "second"), .remove (.number 2),
    .append (.new (.label "d")) none none]

theorem numbers_distinct_iff_replaced :
    let w : Workflow Unit := (Workflow.empty 0 .default).carryOut replaced
    (∀ op ∈ replaced, op.Unnumbered) ∧ w.registered.map (fun r => (r.id.index, r.number)) =
      [(0, 0), (3, 1)] ∧ w.numbers.Nodup ∧ w.Identifying := by
  intro w
  have hops : ∀ op ∈ replaced, op.Unnumbered := by
    simp [replaced, Operation.Unnumbered]
  have hnodup : w.numbers.Nodup := by
    decide +kernel
  obtain ⟨_, hidentifying⟩ := numbers_distinct_iff 0 .default hops
  exact ⟨hops, by decide +kernel, hnodup, (hidentifying _ List.prefix_rfl).mpr hnodup⟩

def crowded : List (Operation Unit) :=
  [.append (.new (.label "a")) none none, .append (.new (.label "b")) none none,
    .remove (.id ⟨0, 0⟩), .append (.new (.label "c")) none none]

theorem numbers_repeated_crowded :
    let w : Workflow Unit := (Workflow.empty 0 .default).carryOut crowded
    (∀ op ∈ crowded, op.Unnumbered) ∧ ¬w.numbers.Nodup ∧
      w.registered.map (fun r => (r.id, r.number)) = [(⟨0, 1⟩, 1), (⟨0, 2⟩, 1)] ∧
      w.findNumber? 1 = some ⟨0, 1⟩ ∧
      (w.after (.remove (.number 1))).registered.map (·.id) = [⟨0, 2⟩] := by
  refine ⟨by simp [crowded, Operation.Unnumbered], ?_⟩
  decide +kernel

end Workflow

end Sequencer
