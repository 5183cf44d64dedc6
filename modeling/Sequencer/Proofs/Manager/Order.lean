import Sequencer.Proofs.Manager.Insertion
import Sequencer.Proofs.Manager.Observation
import Sequencer.Step.Builtin

/-!
The order in which steps are stored. Steps with keys of their own, no two the same, may be stored in
any order: all that is left of it is the next free key, which only a step without a key ever takes.
-/

namespace Sequencer

namespace KeyMap

variable {α : Type}

theorem insertEntry_comm_of_lt {key other : StepKey} (h : key < other) (x y : α)
    (entries : List (StepKey × α)) :
    insertEntry key x (insertEntry other y entries) =
      insertEntry other y (insertEntry key x entries) := by
  have hne : other ≠ key := by
    rintro rfl
    simp at h
  have hge : ¬other < key := Int64.lt_asymm h
  induction entries with
  | nil => simp [insertEntry, h, hne, hge, hne.symm]
  | cons entry rest ih =>
    obtain ⟨k, z⟩ := entry
    by_cases heq : key = k
    . subst heq
      simp [insertEntry, hne, hge]
    . by_cases hlt : key < k
      . by_cases heq' : other = k
        . subst heq'
          simp [insertEntry, h, hne, hge, hne.symm]
        . by_cases hlt' : other < k <;>
            simp [insertEntry, h, hne, hge, hne.symm, heq, hlt, heq', hlt']
      . -- both go behind this entry
        have hkey : k < key := (Int64.lt_or_lt_of_ne heq).resolve_left hlt
        have hother : k < other := Int64.lt_trans hkey h
        have heq' : other ≠ k := by
          rintro rfl
          simp at hother
        have hlt' : ¬other < k := Int64.lt_asymm hother
        simp [insertEntry, heq, hlt, heq', hlt', ih]

theorem insert_comm (m : KeyMap α) {key other : StepKey} (h : key ≠ other) (x y : α) :
    (m.insert key x).insert other y = (m.insert other y).insert key x := by
  simp only [insert, mk.injEq]
  rcases Int64.lt_or_lt_of_ne h with hlt | hlt
  . exact (insertEntry_comm_of_lt hlt x y m.entries).symm
  . exact insertEntry_comm_of_lt hlt y x m.entries

end KeyMap

namespace Manager

variable {σ : Type}

structure Keyed (pairs : List (StepSource σ × Option StepData)) : Prop where
  keyed : ∀ pair ∈ pairs, pair.1.key.isSome = true
  distinct : (pairs.map (·.1.key)).Nodup

namespace Keyed

variable {pairs pairs' : List (StepSource σ × Option StepData)}
  {pair : StepSource σ × Option StepData}

theorem tail (h : Keyed (pair :: pairs)) : Keyed pairs where
  keyed := fun other hother => h.keyed other (List.mem_cons_of_mem pair hother)
  distinct := (List.nodup_cons.mp h.distinct).2

theorem perm (h : Keyed pairs) (hperm : pairs.Perm pairs') : Keyed pairs' where
  keyed := fun pair hpair => h.keyed pair (hperm.mem_iff.mpr hpair)
  distinct := (hperm.map _).nodup_iff.mp h.distinct

theorem assignedKeys (h : Keyed pairs) (next : StepKey) :
    (Manager.assignedKeys next (pairs.map (·.1))).map some = pairs.map (·.1.key) := by
  induction pairs generalizing next with
  | nil => rfl
  | cons pair rest ih =>
    obtain ⟨key, hkey⟩ := Option.isSome_iff_exists.mp (h.keyed pair List.mem_cons_self)
    simp only [List.map_cons, Manager.assignedKeys, hkey, Option.getD_some, ih h.tail]

theorem get?_insertAll (h : Keyed pairs) (m : Manager σ) {source : StepSource σ}
    {data : Option StepData} {key : StepKey} (hpair : (source, data) ∈ pairs)
    (hkey : source.key = some key) :
    (m.insertAll pairs).steps.get? key = some { source, generated := none, data } := by
  have hdistinct : (Manager.assignedKeys m.nextKey (pairs.map (·.1))).Nodup := by
    apply List.Nodup.of_map some
    rw [h.assignedKeys]
    exact h.distinct
  obtain ⟨k, hk⟩ := List.getElem?_of_mem hpair
  have hsource : (pairs.map (·.1))[k]? = some source := by
    rw [List.getElem?_map, hk]
    rfl
  exact Manager.get?_insertAll hdistinct hk (getElem?_assignedKeys m.nextKey hsource hkey)

end Keyed

namespace Alike

variable {m m' : Manager σ} {pairs pairs' : List (StepSource σ × Option StepData)}

theorem store (h : Alike m m') {source : StepSource σ} (hkeyed : source.key.isSome = true)
    (data : Option StepData) :
    Alike (m.insert source data).value.2 (m'.insert source data).value.2 :=
  (h.insert hkeyed data).value.manager

theorem insertAll (h : Alike m m') (hkeyed : Keyed pairs) :
    Alike (m.insertAll pairs) (m'.insertAll pairs) := by
  induction pairs generalizing m m' with
  | nil => exact h
  | cons pair rest ih => exact ih (h.store (hkeyed.keyed pair List.mem_cons_self) _) hkeyed.tail

theorem insert_comm (m : Manager σ) {a b : StepSource σ × Option StepData}
    (h : Keyed (b :: a :: pairs)) :
    Alike ((m.insert b.1 b.2).value.2.insert a.1 a.2).value.2
      ((m.insert a.1 a.2).value.2.insert b.1 b.2).value.2 := by
  obtain ⟨keyA, hkeyA⟩ := Option.isSome_iff_exists.mp (h.keyed a (by simp))
  obtain ⟨keyB, hkeyB⟩ := Option.isSome_iff_exists.mp (h.keyed b (by simp))
  have hne : keyB ≠ keyA := by
    rintro rfl
    have := h.distinct
    simp [hkeyA, hkeyB] at this
  simp only [value_insert, hkeyA, hkeyB, Option.getD_some, KeyMap.insert_comm m.steps hne]
  exact ⟨_, rfl⟩

theorem insertAll_perm (hperm : pairs.Perm pairs') (h : Alike m m') (hkeyed : Keyed pairs) :
    Alike (m.insertAll pairs) (m'.insertAll pairs') := by
  induction hperm generalizing m m' with
  | nil => exact h
  | cons pair _ ih => exact ih (h.store (hkeyed.keyed pair List.mem_cons_self) _) hkeyed.tail
  | swap a b rest =>
    -- both have the two steps, and from then on the rest is stored in one order
    apply insertAll _ hkeyed.tail.tail
    apply (insert_comm m hkeyed).trans
    apply store _ (hkeyed.keyed b List.mem_cons_self)
    exact h.store (hkeyed.tail.keyed a List.mem_cons_self) _
  | trans hfirst _ ihFirst ihSecond =>
    exact (ihFirst h hkeyed).trans (ihSecond (refl m') (hkeyed.perm hfirst))

end Alike

/--
Steps with distinct keys of their own are all stored under their keys. The order in which they are
stored is never seen, unless a step without a key is stored later.
-/
theorem session_insertAll_perm (config : EngineConfig)
    {pairs pairs' : List (StepSource σ × Option StepData)} (hperm : pairs.Perm pairs')
    (hkeyed : Keyed pairs) (caller : List (Observation σ) → Operation σ) {n : Nat}
    (hcaller : ∀ k < n,
      (caller (((empty config).insertAll pairs).session caller k).1).keyed = true) :
    let m := (empty config).insertAll pairs
    let m' := (empty config).insertAll pairs'
    (∀ source data key, (source, data) ∈ pairs → source.key = some key →
      m.steps.get? key = some { source, generated := none, data }) ∧
    AlikeAfter (m.session caller n) (m'.session caller n) := by
  intro m m'
  have hfilled : Alike m m' := Alike.insertAll_perm hperm (Alike.refl _) hkeyed
  refine ⟨?_, hfilled.session caller hcaller⟩
  intro source data key hpair hkey
  exact hkeyed.get?_insertAll _ hpair hkey

def namesakes : List (StepSource Nat × Option StepData) :=
  [(.generator ⟨some 3, some "work", fun count => (.marker "made" none, count + 1)⟩, none),
    (.step (.callback "work" (some 1) fun context env => (context, env)),
      some (.ofMembers [("load", .null)])),
    (.step (.marker "work" (some 2)), none)]

def removeFirst (seen : List (Observation Nat)) : Operation Nat :=
  match seen.length with
  | 0 | 3 => .process ⟨.empty, seen.length⟩
  | 1 => .remove (.name "work")
  | _ => .restart (.name "work") ⟨.empty, 0⟩

theorem session_insertAll_perm_namesakes :
    Keyed namesakes ∧ namesakes.reverse.Perm namesakes ∧
    let m := (empty .default).insertAll namesakes.reverse
    let m' := (empty .default).insertAll namesakes
    m.nextKey ≠ m'.nextKey ∧
    AlikeAfter (m.session removeFirst 4) (m'.session removeFirst 4) ∧
    (m'.session removeFirst 4).1.map (·.currentKey) = [some 2, none, some 2, none] := by
  have hkeyed : Keyed namesakes := ⟨by decide +kernel, by decide +kernel⟩
  have hperm : namesakes.reverse.Perm namesakes := List.reverse_perm namesakes
  have hcaller (seen : List (Observation Nat)) : (removeFirst seen).keyed = true := by
    unfold removeFirst
    split <;> rfl
  refine ⟨hkeyed, hperm, by decide +kernel, ?_, by decide +kernel⟩
  exact (session_insertAll_perm .default hperm (hkeyed.perm hperm.symm) removeFirst
    fun k _ => hcaller _).2

end Manager

end Sequencer
