import Mathlib.Data.List.Find
import Sequencer.Proofs.Instruction.Successor
import Sequencer.Proofs.Workflow.Operation

/-!
The link pass. `Bound` says that every jump among some nodes goes on at the label of its name among
them. A pass that succeeds leaves all live nodes bound, and on bound nodes a pass changes nothing.
-/

namespace Sequencer

namespace Workflow

variable {σ : Type}

def Bound (g : Graph σ) (live : List InstructionId) : Prop :=
  ∀ jump ∈ live, ∀ label, g.jumpLabel? jump = some label →
    ∃ target, findLabel? g live label = some target ∧ g.next? jump = some target

theorem findLabel?_congr {g h : Graph σ} (heq : g.shape = h.shape) (live : List InstructionId)
    (name : String) : findLabel? g live name = findLabel? h live name := by
  rw [findLabel?, findLabel?, Graph.labelName?_congr heq]

theorem bound_congr {g h : Graph σ} (heq : g.unvisited = h.unvisited)
    {live : List InstructionId} (hbound : Bound g live) : Bound h live := by
  have hshape := Graph.shape_eq_of_unvisited heq
  intro jump hjump label hlabel
  rw [← Graph.jumpLabel?_congr hshape] at hlabel
  obtain ⟨target, hfind, hnext⟩ := hbound jump hjump label hlabel
  refine ⟨target, ?_, ?_⟩
  . rw [← findLabel?_congr hshape, hfind]
  . rw [← Graph.next?_congr heq, hnext]

theorem bound_extend {g : Graph σ} {nodes : List (Node σ)} {live : List InstructionId}
    (hlive : ∀ id ∈ live, id.index < g.size) (hbound : Bound g live) :
    Bound (g.extend nodes) live := by
  intro jump hjump label hlabel
  rw [Graph.jumpLabel?_extend (hlive jump hjump)] at hlabel
  obtain ⟨target, hfind, hnext⟩ := hbound jump hjump label hlabel
  refine ⟨target, ?_, ?_⟩
  . rw [← hfind]
    apply List.find?_congr
    intro id hid
    rw [Graph.labelName?_extend (hlive id hid)]
  . rw [Graph.next?_extend (hlive jump hjump), hnext]

theorem bindJumps_ok {g : Graph σ} {live ids : List InstructionId}
    {bindings : List (InstructionId × InstructionId)}
    (h : bindJumps g live ids = .ok bindings) :
    (∀ jump ∈ ids, ∀ label, g.jumpLabel? jump = some label →
      ∃ target, (jump, target) ∈ bindings) ∧
    ∀ jump target, (jump, target) ∈ bindings → jump ∈ ids ∧
      ∃ label, g.jumpLabel? jump = some label ∧ findLabel? g live label = some target := by
  induction ids generalizing bindings with
  | nil =>
    cases h
    simp
  | cons id rest ih =>
    rw [bindJumps] at h
    split at h
    . next hnone =>
      obtain ⟨hall, heach⟩ := ih h
      constructor
      . intro jump hjump label hlabel
        rw [List.mem_cons] at hjump
        rcases hjump with rfl | hjump
        . simp [hnone] at hlabel
        . exact hall jump hjump label hlabel
      . intro jump target hmem
        obtain ⟨hjump, hlabel⟩ := heach jump target hmem
        exact ⟨List.mem_cons_of_mem _ hjump, hlabel⟩
    . next label hlabel =>
      split at h
      . simp at h
      . next target htarget =>
        split at h
        . simp at h
        . next bindings' hrest =>
          cases h
          obtain ⟨hall, heach⟩ := ih hrest
          constructor
          . intro jump hjump label hlabel
            rw [List.mem_cons] at hjump
            rcases hjump with rfl | hjump
            . exact ⟨target, List.mem_cons_self⟩
            . obtain ⟨target', hmem⟩ := hall jump hjump label hlabel
              exact ⟨target', List.mem_cons_of_mem _ hmem⟩
          . intro jump target' hmem
            rw [List.mem_cons] at hmem
            rcases hmem with hmem | hmem
            . cases hmem
              exact ⟨List.mem_cons_self, label, hlabel, htarget⟩
            . obtain ⟨hjump, hlabel⟩ := heach jump target' hmem
              exact ⟨List.mem_cons_of_mem _ hjump, hlabel⟩

@[simp]
theorem shape_resolve (g : Graph σ) (bindings : List (InstructionId × InstructionId)) :
    (resolve g bindings).shape = g.shape := by
  induction bindings generalizing g with
  | nil => rfl
  | cons binding rest ih => rw [resolve, ih, Graph.shape_link]

theorem next?_resolve_of_forall_ne {g : Graph σ}
    {bindings : List (InstructionId × InstructionId)} {id : InstructionId}
    (h : ∀ jump target, (jump, target) ∈ bindings → jump.index ≠ id.index) :
    (resolve g bindings).next? id = g.next? id := by
  induction bindings generalizing g with
  | nil => rfl
  | cons binding rest ih =>
    obtain ⟨jump, target⟩ := binding
    rw [resolve, ih, Graph.next?_link, if_neg]
    . have := h jump target List.mem_cons_self
      omega
    . intro jump target hmem
      exact h jump target (List.mem_cons_of_mem _ hmem)

theorem next?_resolve {g : Graph σ} {bindings : List (InstructionId × InstructionId)}
    {id target : InstructionId} (hlt : id.index < g.size)
    (hsame : ∀ jump target', (jump, target') ∈ bindings → jump.index = id.index →
      target' = target)
    (h : g.next? id = some target ∨
      ∃ jump target', (jump, target') ∈ bindings ∧ jump.index = id.index) :
    (resolve g bindings).next? id = some target := by
  -- a node may be bound more than once, always to the same target
  induction bindings generalizing g with
  | nil => simpa [resolve] using h
  | cons binding rest ih =>
    obtain ⟨jump, target'⟩ := binding
    rw [resolve]
    apply ih
    . simpa using hlt
    . intro other target'' hmem
      exact hsame other target'' (List.mem_cons_of_mem _ hmem)
    . rw [Graph.next?_link]
      by_cases hindex : jump.index = id.index
      . rw [if_pos ⟨hindex, hlt⟩, hsame jump target' List.mem_cons_self hindex]
        exact Or.inl rfl
      . rw [if_neg (by omega)]
        rcases h with h | ⟨other, target'', hmem, hother⟩
        . exact Or.inl h
        . rw [List.mem_cons] at hmem
          rcases hmem with heq | hmem
          . cases heq
            contradiction
          . exact Or.inr ⟨other, target'', hmem, hother⟩

theorem bound_resolve {g : Graph σ} {live : List InstructionId}
    {bindings : List (InstructionId × InstructionId)}
    (h : bindJumps g live live = .ok bindings) : Bound (resolve g bindings) live := by
  obtain ⟨hall, heach⟩ := bindJumps_ok h
  have hshape := shape_resolve g bindings
  intro jump hjump label hlabel
  rw [Graph.jumpLabel?_congr hshape] at hlabel
  obtain ⟨target, hmem⟩ := hall jump hjump label hlabel
  obtain ⟨_, label', hlabel', hfind⟩ := heach jump target hmem
  have : label' = label := by
    rw [hlabel] at hlabel'
    exact (Option.some.inj hlabel').symm
  subst this
  refine ⟨target, ?_, ?_⟩
  . rw [findLabel?_congr hshape, hfind]
  . apply next?_resolve (Graph.jumpLabel?_lt hlabel)
    . intro other target' hother hindex
      obtain ⟨_, label, hlabel, hfind'⟩ := heach other target' hother
      have : g.jumpLabel? other = g.jumpLabel? jump := by
        simp only [Graph.jumpLabel?, Graph.kind?, Graph.node?, hindex]
      rw [this, hlabel'] at hlabel
      cases hlabel
      rw [hfind] at hfind'
      exact (Option.some.inj hfind').symm
    . exact Or.inr ⟨jump, target, hmem, rfl⟩

theorem resolve_eq_self {g : Graph σ} {bindings : List (InstructionId × InstructionId)}
    (h : ∀ jump target, (jump, target) ∈ bindings → g.next? jump = some target) :
    resolve g bindings = g := by
  induction bindings with
  | nil => rfl
  | cons binding rest ih =>
    obtain ⟨jump, target⟩ := binding
    rw [resolve, Graph.link_next?_self (h jump target List.mem_cons_self), ih]
    intro jump target hmem
    exact h jump target (List.mem_cons_of_mem _ hmem)

theorem bindJumps_of_bound {g : Graph σ} {live : List InstructionId} (hbound : Bound g live)
    {ids : List InstructionId} (hids : ∀ id ∈ ids, id ∈ live) :
    ∃ bindings, bindJumps g live ids = .ok bindings := by
  induction ids with
  | nil => exact ⟨[], rfl⟩
  | cons id rest ih =>
    obtain ⟨bindings, hrest⟩ := ih fun id hid => hids id (List.mem_cons_of_mem _ hid)
    rw [bindJumps]
    cases hlabel : g.jumpLabel? id with
    | none => exact ⟨bindings, hrest⟩
    | some label =>
      obtain ⟨target, hfind, _⟩ := hbound id (hids id List.mem_cons_self) label hlabel
      exact ⟨(id, target) :: bindings, by simp [hfind, hrest]⟩

theorem resolve_of_bound {g : Graph σ} {live : List InstructionId} (hbound : Bound g live) :
    ∃ bindings, bindJumps g live live = .ok bindings ∧ resolve g bindings = g := by
  obtain ⟨bindings, h⟩ := bindJumps_of_bound hbound fun _ hid => hid
  refine ⟨bindings, h, ?_⟩
  apply resolve_eq_self
  intro jump target hmem
  obtain ⟨hjump, label, hlabel, hfind⟩ := (bindJumps_ok h).2 jump target hmem
  obtain ⟨target', hfind', hnext⟩ := hbound jump hjump label hlabel
  rw [hfind] at hfind'
  cases hfind'
  exact hnext

section Part

/-! A pass over some of the nodes. -/

variable {g : Graph σ}

theorem bindJumps_append (live xs ys : List InstructionId) :
    bindJumps g live (xs ++ ys) =
      (bindJumps g live xs).bind fun first => (bindJumps g live ys).map (first ++ ·) := by
  induction xs with
  | nil =>
    rw [List.nil_append, bindJumps]
    cases bindJumps g live ys <;> rfl
  | cons id xs ih =>
    rw [List.cons_append, bindJumps, bindJumps, ih]
    cases g.jumpLabel? id with
    | none => rfl
    | some label =>
      dsimp only
      cases findLabel? g live label with
      | none => rfl
      | some target => cases bindJumps g live xs <;> cases bindJumps g live ys <;> rfl

theorem bindJumps_append_eq_ok_iff {live xs ys : List InstructionId}
    {bindings : List (InstructionId × InstructionId)} :
    bindJumps g live (xs ++ ys) = .ok bindings ↔
      ∃ first rest, bindJumps g live xs = .ok first ∧ bindJumps g live ys = .ok rest ∧
        first ++ rest = bindings := by
  rw [bindJumps_append]
  cases bindJumps g live xs with
  | error missing => simp [Except.bind]
  | ok first => cases bindJumps g live ys <;> simp [Except.bind, Except.map]

theorem bindJumps_congr_live {live live' : List InstructionId}
    (h : ∀ name, findLabel? g live' name = findLabel? g live name) (ids : List InstructionId) :
    bindJumps g live' ids = bindJumps g live ids := by
  induction ids with
  | nil => rfl
  | cons id rest ih => simp only [bindJumps, h, ih]

theorem resolve_append (first rest : List (InstructionId × InstructionId)) :
    resolve g (first ++ rest) = resolve (resolve g first) rest := by
  induction first generalizing g with
  | nil => rfl
  | cons binding first ih => exact ih

theorem resolve_resolve_of_bound {live xs ys : List InstructionId}
    {first again : List (InstructionId × InstructionId)} (hfirst : bindJumps g live xs = .ok first)
    (hagain : bindJumps g live ys = .ok again)
    (hbound : ∀ jump ∈ ys, ∀ label, g.jumpLabel? jump = some label →
      ∃ target, findLabel? g live label = some target ∧ g.next? jump = some target) :
    resolve (resolve g first) again = resolve g first := by
  apply resolve_eq_self
  intro jump target hmem
  obtain ⟨hjump, label, hlabel, hfind⟩ := (bindJumps_ok hagain).2 jump target hmem
  obtain ⟨target', hfind', hnext⟩ := hbound jump hjump label hlabel
  rw [hfind, Option.some.injEq] at hfind'
  rw [← hfind'] at hnext
  apply next?_resolve (Graph.jumpLabel?_lt hlabel) _ (Or.inl hnext)
  -- a node that is bound in between by the same index goes to the label of the same name
  intro other target'' hother hindex
  obtain ⟨_, name, hname, hfound⟩ := (bindJumps_ok hfirst).2 other target'' hother
  have hsame : g.jumpLabel? other = g.jumpLabel? jump := by
    simp only [Graph.jumpLabel?, Graph.kind?, Graph.node?, hindex]
  rw [hsame, hlabel, Option.some.injEq] at hname
  rw [← hname, hfind, Option.some.injEq] at hfound
  exact hfound.symm

theorem findLabel?_of_unlabelled {middle : List InstructionId}
    (h : ∀ node ∈ middle, g.labelName? node = none) (before after : List InstructionId)
    (name : String) :
    findLabel? g (before ++ after) name = findLabel? g (before ++ middle ++ after) name := by
  have hmiddle : middle.find? (fun id => g.labelName? id = some name) = none := by
    rw [List.find?_eq_none]
    intro node hnode
    simp [h node hnode]
  simp only [findLabel?, List.find?_append, hmiddle, Option.or_none]

theorem resolve_without {before middle after : List InstructionId}
    (hlabels : ∀ node ∈ middle, g.labelName? node = none)
    (hbound : ∀ jump ∈ middle, ∀ label, g.jumpLabel? jump = some label →
      ∃ target, findLabel? g (before ++ middle ++ after) label = some target ∧
        g.next? jump = some target)
    {bindings : List (InstructionId × InstructionId)}
    (h : bindJumps g (before ++ middle ++ after) (before ++ middle ++ after) = .ok bindings) :
    ∃ bindings', bindJumps g (before ++ after) (before ++ after) = .ok bindings' ∧
      resolve g bindings' = resolve g bindings := by
  have hlive := bindJumps_congr_live (findLabel?_of_unlabelled hlabels before after)
    (before ++ after)
  obtain ⟨_, rest, hboth, hafter, rfl⟩ := bindJumps_append_eq_ok_iff.mp h
  obtain ⟨first, again, hbefore, hmiddle, rfl⟩ := bindJumps_append_eq_ok_iff.mp hboth
  refine ⟨first ++ rest, ?_, ?_⟩
  . rw [hlive, bindJumps_append_eq_ok_iff]
    exact ⟨first, rest, hbefore, hafter, rfl⟩
  . rw [resolve_append, resolve_append, resolve_append,
      resolve_resolve_of_bound hbefore hmiddle hbound]

end Part

theorem value_link (w : Workflow σ) :
    w.link.value =
      match w.bindings with
      | .error (jump, label) => (.error (.instructionReference jump label), w)
      | .ok bindings =>
        (.ok (), { w with graph := resolve w.graph bindings, linksStale := false }) := by
  unfold link
  cases w.bindings <;> rfl

end Workflow

end Sequencer
