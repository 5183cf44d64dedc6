import Sequencer.Proofs.Manager.Moves

/-!
What a manager has come to, by its history. `recorded` goes through the moments and keeps account of
what is stored under one key, `contextAfter` of the context and `worldAfter` of the world. A manager
on a path is as these accounts say, and `Path.of_called` says that every call finds it as it is by
then.
-/

namespace Sequencer

namespace Manager

variable {σ : Type}

def Moment.record (key : StepKey) (entry : Option (StepEntry σ)) :
    Moment σ → Option (StepEntry σ)
  | .inserted k source data => if k = key then some { source, generated := none, data } else entry
  | .removed k => if k = key then none else entry
  | .generated k generator found =>
    if k = key then
      entry.map fun entry => { entry with generated := some (generator.generate found).1 }
    else entry
  | .called call _ left =>
    if call.key = key ∧ call.hook = .process then
      entry.map fun entry => { entry with data := left.1.data }
    else entry
  | _ => entry

def recorded (key : StepKey) (moments : List (Moment σ)) : Option (StepEntry σ) :=
  moments.foldl (Moment.record key) none

def recordedData (key : StepKey) (moments : List (Moment σ)) : Option StepData :=
  (recorded key moments).bind (·.data)

def Moment.leaves (world : σ) : Moment σ → σ
  | .entered world => world
  | .generated _ generator found => (generator.generate found).2
  | .called _ _ left => left.2
  | _ => world

def worldAfter (world : σ) (moments : List (Moment σ)) : σ :=
  moments.foldl Moment.leaves world

def Moment.leavesContext (context : Context) : Moment σ → Context
  | .edited edit => edit context
  | .called call _ left => if call.hook = .process then { left.1 with data := none } else left.1
  | _ => context

def contextAfter (moments : List (Moment σ)) : Context :=
  moments.foldl Moment.leavesContext .empty

theorem worldAfter_append (world : σ) (moments moments' : List (Moment σ)) :
    worldAfter world (moments ++ moments') = worldAfter (worldAfter world moments) moments' :=
  List.foldl_append

theorem foldl_generations {β : Type} {account : β → Moment σ → β}
    {entries : List (StepKey × StepEntry σ)}
    (h : ∀ key ∈ entries.map (·.1), ∀ generator found b,
      account b (.generated key generator found) = b) (world : σ) (b : β) :
    (generations world entries).foldl account b = b := by
  induction entries generalizing world with
  | nil => rfl
  | cons pair rest ih =>
    obtain ⟨key, entry⟩ := pair
    rw [List.map_cons, List.forall_mem_cons] at h
    unfold generations
    cases entry.source with
    | step step => exact ih h.2 world
    | generator generator =>
      rw [List.foldl_cons, h.1]
      exact ih h.2 _

theorem foldl_record_generations {key : StepKey} {entries : List (StepKey × StepEntry σ)}
    (hkey : key ∉ entries.map (·.1)) (world : σ) (entry : Option (StepEntry σ)) :
    (generations world entries).foldl (Moment.record key) entry = entry := by
  apply foldl_generations
  intro k hk generator found entry
  apply if_neg
  rintro rfl
  exact hkey hk

theorem get?_generateAll (world : σ) {entries : List (StepKey × StepEntry σ)}
    (hascending : (entries.map (·.1)).Pairwise (· < ·)) (key : StepKey) :
    KeyMap.assoc? key (generateAll world entries).value.1 =
      (generations world entries).foldl (Moment.record key) (KeyMap.assoc? key entries) := by
  induction entries generalizing world with
  | nil => rfl
  | cons pair rest ih =>
    obtain ⟨k, entry⟩ := pair
    rw [List.map_cons, List.pairwise_cons] at hascending
    have hfirst : k ∉ rest.map (·.1) := by
      intro hk
      exact Int64.lt_irrefl (hascending.1 k hk)
    unfold generateAll generations
    cases hsource : entry.source with
    | step step =>
      simp only [Traced.value_bind, Traced.value_pure, KeyMap.assoc?]
      split
      . next heq =>
        subst heq
        rw [foldl_record_generations hfirst]
      . exact ih world hascending.2
    | generator generator =>
      simp only [Traced.value_bind, Traced.value_pure, KeyMap.assoc?, List.foldl_cons,
        Moment.record]
      split
      . next heq =>
        subst heq
        rw [foldl_record_generations hfirst, Option.map_some, hsource]
      . exact ih _ hascending.2

theorem Moment.record_called_of_ne {call : StepCall σ} (h : call.hook ≠ .process) (found : σ)
    (left : Context × σ) (key : StepKey) (entry : Option (StepEntry σ)) :
    (Moment.called call found left).record key entry = entry :=
  if_neg fun hcall => h hcall.2

theorem Move.get?_eq {s s' : Manager σ × σ} {moments : List (Moment σ)} (h : Move s moments s')
    (hs : s.1.Faithful) (key : StepKey) :
    s'.1.steps.get? key = moments.foldl (Moment.record key) (s.1.steps.get? key) := by
  cases h with
  | insert m world source data => exact KeyMap.get?_insert ..
  | remove hkey world => exact KeyMap.get?_erase ..
  | rebuild m world =>
    rw [rebuildMoments, List.foldl_append]
    exact get?_generateAll world hs.ascending key
  | @process m k step hkey hstep env left hleft =>
    rw [List.foldl_cons, List.foldl_nil, Moment.record, KeyMap.get?_modify]
    simp [callOf]
  | willEnd | didBegin | reset =>
    rw [List.foldl_cons, List.foldl_nil, Moment.record_called_of_ne (by simp [callOf])]
  | _ => rfl

theorem Path.get?_eq {s s' : Manager σ × σ} {moments : List (Moment σ)} (h : Path s moments s')
    (hs : s.1.Faithful) (key : StepKey) :
    s'.1.steps.get? key = moments.foldl (Moment.record key) (s.1.steps.get? key) := by
  induction h with
  | refl => rfl
  | tail hpath hmove ih => rw [hmove.get?_eq (hpath.faithful hs), ih, List.foldl_append]

theorem Move.get?_cases {s s' : Manager σ × σ} {moments : List (Moment σ)} (h : Move s moments s')
    {key : StepKey} {entry : StepEntry σ} (hentry : s'.1.steps.get? key = some entry) :
    (∃ source data, .inserted key source data ∈ moments ∧ entry = ⟨source, none, data⟩) ∨
    (moments = s.1.rebuildMoments s.2 ∧ s' = (s.1.rebuild s.2).value) ∨
    ∃ old, s.1.steps.get? key = some old ∧
      (old.source = entry.source ∧ old.generated = entry.generated) ∧
      ∀ keys, .rebuilt keys ∉ moments := by
  cases h with
  | insert m world source data =>
    simp only [Manager.insert, Traced.value_bind, Traced.value_pure, KeyMap.get?_insert] at hentry
    split at hentry
    . next heq =>
      cases hentry
      exact Or.inl ⟨source, data, by simp [heq], rfl⟩
    . exact Or.inr (Or.inr ⟨entry, hentry, ⟨rfl, rfl⟩, by simp⟩)
  | remove hkey world =>
    rw [KeyMap.get?_erase] at hentry
    split at hentry
    . cases hentry
    . exact Or.inr (Or.inr ⟨entry, hentry, ⟨rfl, rfl⟩, by simp⟩)
  | rebuild m world => exact Or.inr (Or.inl ⟨rfl, rfl⟩)
  | process hkey hstep env hleft =>
    rw [KeyMap.get?_modify] at hentry
    split at hentry
    . obtain ⟨old, hold, rfl⟩ := Option.map_eq_some_iff.mp hentry
      exact Or.inr (Or.inr ⟨old, hold, ⟨rfl, rfl⟩, by simp⟩)
    . exact Or.inr (Or.inr ⟨entry, hentry, ⟨rfl, rfl⟩, by simp⟩)
  | _ => exact Or.inr (Or.inr ⟨entry, hentry, ⟨rfl, rfl⟩, by simp⟩)

theorem worldAfter_generations (world : σ) (entries : List (StepKey × StepEntry σ)) :
    worldAfter world (generations world entries) = (generateAll world entries).value.2 := by
  induction entries generalizing world with
  | nil => rfl
  | cons pair rest ih =>
    obtain ⟨key, entry⟩ := pair
    unfold generations generateAll
    cases entry.source with
    | step step => exact ih world
    | generator generator => exact ih _

/-- What every move keeps account of is as the account says at the end of a path. -/
theorem Path.eq_foldl {β : Type} {view : Manager σ × σ → β} {account : β → Moment σ → β}
    {s s' : Manager σ × σ} {moments : List (Moment σ)} (h : Path s moments s')
    (hmoves : ∀ {s s' : Manager σ × σ} {moments : List (Moment σ)}, Move s moments s' →
      view s' = moments.foldl account (view s)) : view s' = moments.foldl account (view s) := by
  induction h with
  | refl => rfl
  | tail _ hmove ih => rw [hmoves hmove, ih, List.foldl_append]

theorem Move.world_eq {s s' : Manager σ × σ} {moments : List (Moment σ)} (h : Move s moments s') :
    s'.2 = worldAfter s.2 moments := by
  cases h with
  | rebuild m world =>
    rw [rebuildMoments, worldAfter_append, worldAfter_generations]
    rfl
  | _ => rfl

theorem Path.world_eq {s s' : Manager σ × σ} {moments : List (Moment σ)} (h : Path s moments s') :
    s'.2 = worldAfter s.2 moments :=
  h.eq_foldl fun hmove => hmove.world_eq

theorem Move.context_eq {s s' : Manager σ × σ} {moments : List (Moment σ)} (h : Move s moments s') :
    s'.1.context = moments.foldl Moment.leavesContext s.1.context := by
  cases h with
  | rebuild m world =>
    rw [rebuildMoments, List.foldl_append, foldl_generations fun _ _ _ _ _ => rfl, value_rebuild]
    rfl
  | _ => rfl

theorem Path.context_eq {s s' : Manager σ × σ} {moments : List (Moment σ)} (h : Path s moments s') :
    s'.1.context = moments.foldl Moment.leavesContext s.1.context :=
  h.eq_foldl fun hmove => hmove.context_eq

structure Makes (m : Manager σ) (call : StepCall σ) (found : σ) (left : Context × σ) : Prop where
  stepAt? : m.stepAt? call.key = some call.step
  callOf : m.callOf call.hook call.key call.step = call
  leaves : ∃ register, call.leaves ⟨register, found⟩ = left

theorem exists_of_mem_generations {world : σ} {entries : List (StepKey × StepEntry σ)}
    {moment : Moment σ} (h : moment ∈ generations world entries) :
    ∃ key generator found, moment = .generated key generator found := by
  induction entries generalizing world with
  | nil => simp [generations] at h
  | cons pair rest ih =>
    obtain ⟨key, entry⟩ := pair
    unfold generations at h
    split at h
    . exact ih h
    . next generator _ =>
      rw [List.mem_cons] at h
      rcases h with rfl | h
      . exact ⟨key, generator, world, rfl⟩
      . exact ih h

theorem Move.of_called {s s' : Manager σ × σ} {before after : List (Moment σ)} {call : StepCall σ}
    {found : σ} {left : Context × σ} (h : Move s (before ++ .called call found left :: after) s') :
    before = [] ∧ s.2 = found ∧ s.1.Makes call found left := by
  generalize hmoments : before ++ .called call found left :: after = moments at h
  have hmem : .called call found left ∈ moments := by
    rw [← hmoments]
    simp
  cases h with
  | rebuild m world =>
    rw [rebuildMoments, List.mem_append] at hmem
    rcases hmem with hmem | hmem
    . obtain ⟨_, _, _, heq⟩ := exists_of_mem_generations hmem
      simp at heq
    . simp at hmem
  | process hkey hstep env hleft | willEnd hkey hstep env hleft
  | didBegin hopen hkey hstep env hleft | reset hstep env hleft =>
    obtain ⟨hbefore, heq⟩ := eq_singleton_of_append_cons hmoments
    cases heq
    exact ⟨hbefore, rfl, hstep, rfl, env.register, hleft⟩
  | _ => simp at hmem

theorem Path.of_called {s s' : Manager σ × σ} {before after : List (Moment σ)} {call : StepCall σ}
    {found : σ} {left : Context × σ} (h : Path s (before ++ .called call found left :: after) s') :
    ∃ m, Path s before (m, found) ∧ m.Makes call found left := by
  obtain ⟨earlier, ⟨m, world⟩, before', after', s₂, later, hbefore, -, hpath, hmove⟩ := h.split
  obtain ⟨rfl, rfl, hmakes⟩ := hmove.of_called
  rw [List.append_nil] at hbefore
  subst hbefore
  exact ⟨m, hpath, hmakes⟩

theorem Move.of_rebuilt {s s' : Manager σ × σ} {before after : List (Moment σ)}
    {keys : List StepKey} (h : Move s (before ++ .rebuilt keys :: after) s') :
    before = generations s.2 s.1.steps.entries ∧ keys = s.1.steps.keys := by
  generalize hmoments : before ++ .rebuilt keys :: after = moments at h
  have hmem : .rebuilt keys ∈ moments := by
    rw [← hmoments]
    simp
  cases h with
  | rebuild m world =>
    rcases append_eq_append_cons hmoments.symm with ⟨rest, rfl, hrest⟩ | ⟨rest, hmade, _⟩
    . obtain ⟨rfl, heq⟩ := eq_singleton_of_append_cons hrest.symm
      cases heq
      exact ⟨List.append_nil _, rfl⟩
    . obtain ⟨_, _, _, heq⟩ := exists_of_mem_generations
        (hmade ▸ List.mem_append_right before List.mem_cons_self)
      simp at heq
  | _ => simp at hmem

theorem Path.of_rebuilt {s s' : Manager σ × σ} {before after : List (Moment σ)}
    {keys : List StepKey} (h : Path s (before ++ .rebuilt keys :: after) s') :
    ∃ earlier m world, Path s earlier (m, world) ∧
      before = earlier ++ generations world m.steps.entries ∧ keys = m.steps.keys := by
  obtain ⟨earlier, ⟨m, world⟩, before', after', s₂, later, hbefore, -, hpath, hmove⟩ := h.split
  obtain ⟨rfl, rfl⟩ := hmove.of_rebuilt
  exact ⟨earlier, m, world, hpath, hbefore, rfl⟩

section Run

variable {config : EngineConfig} {world : σ} {s : Manager σ × σ} {moments : List (Moment σ)}

theorem get?_eq_recorded (h : Path (.empty config, world) moments s) (key : StepKey) :
    s.1.steps.get? key = recorded key moments :=
  h.get?_eq (Faithful.empty config) key

theorem recorded_of_called {before after : List (Moment σ)} {call : StepCall σ} {found : σ}
    {left : Context × σ}
    (h : Path (.empty config, world) (before ++ .called call found left :: after) s) :
    (recorded call.key before).bind StepEntry.step? = some call.step := by
  obtain ⟨m, hpath, hmakes⟩ := h.of_called
  rw [← get?_eq_recorded hpath]
  exact hmakes.stepAt?

theorem context_eq_contextAfter (h : Path (.empty config, world) moments s) :
    s.1.context = contextAfter moments :=
  h.context_eq

theorem found_of_called {before after : List (Moment σ)} {call : StepCall σ} {found : σ}
    {left : Context × σ}
    (h : Path (.empty config, world) (before ++ .called call found left :: after) s) :
    found = worldAfter world before ∧ ∃ register, call.leaves ⟨register, found⟩ = left := by
  obtain ⟨m, hpath, hmakes⟩ := h.of_called
  exact ⟨hpath.world_eq, hmakes.leaves⟩

theorem context_of_called {before after : List (Moment σ)} {call : StepCall σ} {found : σ}
    {left : Context × σ}
    (h : Path (.empty config, world) (before ++ .called call found left :: after) s) :
    call.context =
      if call.hook = .process then
        (contextAfter before).enter call.key (recordedData call.key before)
      else (contextAfter before).focusOn call.key := by
  obtain ⟨m, hpath, hmakes⟩ := h.of_called
  rw [recordedData, ← get?_eq_recorded hpath, ← context_eq_contextAfter hpath, ← hmakes.callOf]
  rfl

theorem mem_rebuilt_iff {before after : List (Moment σ)} {keys : List StepKey}
    (h : Path (.empty config, world) (before ++ .rebuilt keys :: after) s) (key : StepKey) :
    key ∈ keys ↔ (recorded key before).isSome = true := by
  obtain ⟨earlier, m, found, hpath, rfl, rfl⟩ := h.of_rebuilt
  have hm := hpath.faithful (Faithful.empty config)
  rw [recorded, List.foldl_append, ← recorded, ← get?_eq_recorded hpath, KeyMap.get?,
    ← get?_generateAll found hm.ascending, ← keys_rebuild m found]
  exact (KeyMap.contains_iff _ key).symm

end Run

end Manager

end Sequencer
