import Sequencer.Proofs.Workflow.Handles
import Sequencer.Proofs.Workflow.Structure

/-!
What is shown while an instruction is pending. The way up from it, from owner to owner, ends at the
registered instruction that it is nested in; there is at most one. So the number and the name that
are shown are those of that registration, and the idle ones when what is pending was taken off the
list.
-/

namespace Sequencer

namespace Graph.Forest

variable {σ : Type} {g : Graph σ}

theorem encloses_iff_of_owner? (hg : g.Forest) (hlisted : g.Listed)
    {top id owner : InstructionId} (htop : top.graph = g.id) (hid : g.contains id = true)
    (howner : g.owner? id = some owner) : g.Encloses top id ↔ top = id ∨ g.Encloses top owner := by
  obtain ⟨hgraph, hchild⟩ := hlisted id owner hid howner
  constructor
  . intro h
    cases h with
    | refl => exact Or.inl rfl
    | nested hparent hchild' =>
      have := hg.eq_of_mem_children (hg.graph_eq hparent htop) hgraph hchild' hchild
      subst this
      exact Or.inr hparent
  . rintro (rfl | h)
    . exact Encloses.refl
    . exact h.nested hchild

end Graph.Forest

namespace Workflow

variable {σ : Type}

theorem Rooted.registrationOf?_eq_some_iff {w : Workflow σ} (h : w.Rooted)
    (hlisted : w.graph.Listed) {id : InstructionId} (hid : w.graph.contains id = true)
    {entry : Registration} :
    w.registrationOf? id = some entry ↔
      entry ∈ w.registered ∧ w.graph.Encloses entry.id id := by
  -- the walk never stops short: the owner of a node has a smaller index
  fun_induction w.registrationOf? id with
  | case1 id found hfind =>
    have hfound := List.mem_of_find?_eq_some hfind
    have heq : found.id = id := by
      simpa using List.find?_some hfind
    subst heq
    rw [Option.some.injEq]
    constructor
    . rintro rfl
      exact ⟨hfound, Graph.Encloses.refl⟩
    . rintro ⟨hentry, hencloses⟩
      have := h.forest.eq_of_owner?_eq_none hencloses (h.roots found hfound)
      exact List.inj_on_of_nodup_map h.distinct hfound hentry this
  | case2 id hfind howner =>
    rw [List.find?_eq_none] at hfind
    constructor
    . simp
    . rintro ⟨hentry, hencloses⟩
      have := h.forest.eq_of_owner?_eq_none hencloses howner
      exact absurd this.symm (by simpa using hfind entry hentry)
  | case3 id hfind owner howner hlt ih =>
    rw [List.find?_eq_none] at hfind
    have hchild := (hlisted id owner hid howner)
    rw [Graph.contains_iff] at hid
    rw [ih (by rw [Graph.contains_iff]; exact ⟨hchild.1, by omega⟩)]
    apply and_congr_right
    intro hentry
    rw [h.forest.encloses_iff_of_owner? hlisted (h.graph_eq hentry)
      (by rwa [Graph.contains_iff]) howner]
    have hne : entry.id ≠ id := by
      simpa using hfind entry hentry
    simp [hne]
  | case4 id hfind owner howner hge =>
    have hchild := (hlisted id owner hid howner).2
    exact absurd ((h.forest owner).later id hchild).1 hge

/--
A pending instruction that is registered, or is nested in a registered one, is so in exactly one,
and the number and the name shown are those of that registration. For an instruction that is in none
the idle ones are shown.
-/
theorem Reachable.current_shows_registration {w : Workflow σ} (h : w.Reachable)
    {id : InstructionId} (hpending : w.pending = some id) :
    (w.IsLive id → ∃ entry, (entry ∈ w.registered ∧ w.graph.Encloses entry.id id) ∧
      (∀ other, other ∈ w.registered ∧ w.graph.Encloses other.id id → other = entry) ∧
      w.currentNumber = entry.number ∧ w.currentName = entry.name.getD idleName) ∧
    (¬w.IsLive id → w.currentNumber = idleNumber ∧ w.currentName = idleName) := by
  have hiff (entry : Registration) :
      w.registrationOf? id = some entry ↔
        entry ∈ w.registered ∧ w.graph.Encloses entry.id id :=
    h.rooted.registrationOf?_eq_some_iff h.listed (h.sound.pending id hpending)
  have hnumber : w.currentNumber = ((w.registrationOf? id).map (·.number)).getD idleNumber := by
    rw [currentNumber, hpending, Option.map_some, Option.getD_some, numberOf]
  have hname : w.currentName = ((w.registrationOf? id).bind (·.name)).getD idleName := by
    rw [currentName, hpending, Option.bind_some]
  constructor
  . rintro ⟨entry, hentry⟩
    have hfound := (hiff entry).mpr hentry
    refine ⟨entry, hentry, ?_, ?_, ?_⟩
    . intro other hother
      have := (hiff other).mpr hother
      rwa [hfound, Option.some.injEq, eq_comm] at this
    . rw [hnumber, hfound, Option.map_some, Option.getD_some]
    . rw [hname, hfound, Option.bind_some]
  . intro hdead
    have hnone : w.registrationOf? id = none := by
      rw [Option.eq_none_iff_forall_ne_some]
      intro entry hfound
      exact hdead ⟨entry, (hiff entry).mp hfound⟩
    rw [hnumber, hname, hnone]
    exact ⟨rfl, rfl⟩

def deeplyPending : Workflow Unit :=
  (Workflow.empty 0 .default)
    |>.after (.append (.new (.label "start")) none none)
    |>.after (.append
      (.new (.condition (.const false)
        (some (.block [.label "inner", .callback fun env => (.retry, env)]))))
      (some 7) (some "branch"))
    |>.after (.append (.new (.label "end")) none (some "end"))
    |>.after (.enable default)
    |>.after (.process default ⟨.empty, ()⟩)

theorem Reachable.current_shows_registration_deeplyPending :
    let removed := deeplyPending.after (.remove (.number 7))
    deeplyPending.Reachable ∧ deeplyPending.pending = some ⟨0, 4⟩ ∧
      deeplyPending.IsLive ⟨0, 4⟩ ∧ deeplyPending.currentNumber = 7 ∧
      deeplyPending.currentName = "branch" ∧
      removed.Reachable ∧ removed.pending = some ⟨0, 4⟩ ∧ ¬removed.IsLive ⟨0, 4⟩ ∧
      removed.currentNumber = idleNumber ∧ removed.currentName = idleName := by
  intro removed
  have hreachable : deeplyPending.Reachable :=
    (((((Reachable.empty _ _).after _).after _).after _).after _).after _
  have hremoved : removed.Reachable := hreachable.after _
  have hpending : deeplyPending.pending = some ⟨0, 4⟩ := by
    decide +kernel
  have hpending' : removed.pending = some ⟨0, 4⟩ := by
    decide +kernel
  have hlive : deeplyPending.IsLive ⟨0, 4⟩ := by
    rw [← hreachable.rooted.mem_liveNodes_iff_isLive]
    decide +kernel
  have hdead : ¬removed.IsLive ⟨0, 4⟩ := by
    rw [← hremoved.rooted.mem_liveNodes_iff_isLive]
    decide +kernel
  obtain ⟨entry, _, hunique, hnumber, hname⟩ :=
    (Reachable.current_shows_registration hreachable hpending).1 hlive
  have hentry : { id := ⟨0, 1⟩, number := 7, name := some "branch" } = entry := by
    apply hunique
    refine ⟨by decide +kernel, ?_⟩
    rw [← hreachable.rooted.forest.mem_subtree_iff]
    decide +kernel
  subst hentry
  obtain ⟨hnumber', hname'⟩ :=
    (Reachable.current_shows_registration hremoved hpending').2 hdead
  exact ⟨hreachable, hpending, hlive, hnumber, hname, hremoved, hpending', hdead, hnumber', hname'⟩

end Workflow

end Sequencer
