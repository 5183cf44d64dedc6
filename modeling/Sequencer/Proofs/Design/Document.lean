import Sequencer.Design.Document
import Sequencer.Proofs.Dictionary
import Sequencer.Proofs.Json.Text

/-!
Designs that are written and read back. What is unset is left out and comes back unset, and what is
set to nothing much, an empty name, empty data or a null entry, comes back as it was set.
-/

namespace Sequencer

open Json (Document Part)
open Json.Document (Depth)

structure StepData.WellFormed (data : StepData) : Prop where
  nodup_keys : data.keys.Nodup
  ordered : ∀ entry ∈ data.entries, entry.2.Ordered

def WorkflowDesign.WellFormed (design : WorkflowDesign) : Prop :=
  ∀ step ∈ design.steps, ∀ data ∈ step.data, data.WellFormed

theorem map_fst_setField_sublist (name : String) (value : Option Document) :
    ((setField name value).map (·.1)).Sublist [name] := by
  cases value <;> simp [setField]

theorem lookup_setField (name other : String) (value : Option Document) :
    (setField name value).lookup other = if other = name then value else none := by
  cases value with
  | none => simp [setField]
  | some d => by_cases h : other = name <;> simp [setField, h]

theorem StepData.read_toDocument {data : StepData} (h : data.WellFormed) {depth : Depth}
    (hdepth : depth.Admits data.toDocument.nesting) :
    StepData.read Json.reader ⟨data.toDocument, depth⟩ = some data := by
  obtain ⟨inner, henter, hinner⟩ := hdepth.enter_record
  have hvalue : ∀ entry ∈ data.entries,
      Document.value? inner (.ofJson entry.2) = some entry.2 := fun entry hentry =>
    Document.value?_ofJson (h.ordered entry hentry)
      (hinner entry.1 _ (List.mem_map_of_mem hentry))
  have hvalues : Json.reader.values ⟨data.toDocument, depth⟩ = some data.entries := by
    have hentries := Part.entries?_record henter
    simp only [Reader.values, Json.reader, StepData.toDocument, hentries, Option.bind_eq_bind,
      Option.bind_some, List.mapM_map]
    refine (mapM_eq_some fun entry hentry => ?_).trans (congrArg some (List.map_id _))
    simp [hvalue entry hentry]
  rw [StepData.read, hvalues]
  show some (Dictionary.ofList data.entries) = some data
  rw [Dictionary.ofList_of_nodup h.nodup_keys]

theorem DesignOptions.read_toDocument (options : DesignOptions) {depth : Depth}
    (hdepth : depth.Admits options.toDocument.nesting) :
    DesignOptions.read Json.reader ⟨options.toDocument, depth⟩ = some options := by
  obtain ⟨inner, henter, hinner⟩ := hdepth.enter_record
  have hnames : ((setField "kick_start" (options.kickStart.map .bool) ++
      setField "circular" (options.circular.map .bool)).map (·.1)).Sublist
        ["kick_start", "circular"] := by
    rw [List.map_append]
    exact (map_fst_setField_sublist _ _).append (map_fst_setField_sublist _ _)
  have hfields := Part.fields?_record (by decide) henter hnames
  have hbool : ∀ field : Option Bool,
      Json.reader.optional ((field.map .bool).map (⟨·, inner⟩)) Json.reader.bool = some field :=
    fun field => Part.optional_map (fun _ => by simp) fun _ _ => rfl
  rw [DesignOptions.read]
  show (Part.fields? _ ⟨options.toDocument, depth⟩).bind _ = _
  rw [DesignOptions.toDocument, hfields, Option.bind_some]
  simp only [List.lookup_append, lookup_setField, String.reduceEq, ↓reduceIte, Option.or_none,
    Option.none_or, hbool]
  rfl

theorem integer_toInt (key : StepKey) (depth : Depth) :
    Json.reader.integer ⟨.integer key.toInt, depth⟩ = some key := by
  have hlow : -(Json.Number.signedBound : Int) ≤ key.toInt := Int64.le_toInt key
  have hhigh : key.toInt < Json.Number.signedBound := Int64.toInt_lt key
  simp [Json.reader, Part.integer?, Document.integer, hlow, hhigh]

theorem StepDesign.read_toDocument {step : StepDesign} (h : ∀ data ∈ step.data, data.WellFormed)
    {depth : Depth} (hdepth : depth.Admits step.toDocument.nesting) :
    StepDesign.read Json.reader ⟨step.toDocument, depth⟩ = some step := by
  obtain ⟨inner, henter, hinner⟩ := hdepth.enter_record
  have hnames : ((("component", Document.text step.component) ::
      (setField "step" (step.key.map fun key => .integer key.toInt) ++
        setField "name" (step.name.map .text) ++
        setField "data" (step.data.map StepData.toDocument))).map (·.1)).Sublist
          ["component", "step", "name", "data"] := by
    rw [List.map_cons, List.map_append, List.map_append]
    exact (((map_fst_setField_sublist _ _).append (map_fst_setField_sublist _ _)).append
      (map_fst_setField_sublist _ _)).cons_cons _
  have hfields := Part.fields?_record (by decide) henter hnames
  have hkey : Json.reader.optional
      ((step.key.map fun key => Document.integer key.toInt).map (⟨·, inner⟩))
        Json.reader.integer = some step.key :=
    Part.optional_map (fun _ => by simp [Document.integer]) fun key _ => integer_toInt key inner
  have hname : Json.reader.optional ((step.name.map .text).map (⟨·, inner⟩))
      Json.reader.text = some step.name :=
    Part.optional_map (fun _ => by simp [Document.text]) fun _ _ => rfl
  have hdata : Json.reader.optional ((step.data.map StepData.toDocument).map (⟨·, inner⟩))
      (StepData.read Json.reader) = some step.data := by
    apply Part.optional_map
    . simp [StepData.toDocument, Document.record]
    . intro data hmem
      apply StepData.read_toDocument (h data hmem)
      exact hinner "data" _ (by simp [Option.mem_def.mp hmem, setField])
  rw [StepDesign.read]
  show (Part.fields? _ ⟨step.toDocument, depth⟩).bind _ = _
  rw [StepDesign.toDocument, hfields, Option.bind_some]
  simp only [List.lookup_cons, List.lookup_append, lookup_setField, String.reduceEq, ↓reduceIte,
    Option.or_none, Option.none_or, String.reduceBEq, hkey, hname, hdata]
  rfl

example : (StepDesign.toDocument ⟨"press", some 7, none, some .empty⟩).render =
    "\x7b\"component\":\"press\",\"step\":7,\"data\":\x7b\x7d\x7d" := by decide

theorem WorkflowDesign.read_toDocument {design : WorkflowDesign} (h : design.WellFormed)
    {depth : Depth} (hdepth : depth.Admits design.toDocument.nesting) :
    WorkflowDesign.read Json.reader ⟨design.toDocument, depth⟩ = some design := by
  obtain ⟨inner, henter, hinner⟩ := hdepth.enter_record
  have hnames : ([("name", Document.text design.name), ("options", design.options.toDocument),
      ("steps", .array (design.steps.map StepDesign.toDocument))].map (·.1)).Sublist
        ["name", "options", "steps"] := List.Sublist.refl _
  have hfields := Part.fields?_record (by decide) henter hnames
  have hoptions : DesignOptions.read Json.reader ⟨design.options.toDocument, inner⟩ =
      some design.options :=
    DesignOptions.read_toDocument _ (hinner "options" _ (by simp))
  have hsteps : (Part.items? ⟨.array (design.steps.map StepDesign.toDocument), inner⟩).bind
      (List.mapM (StepDesign.read Json.reader)) = some design.steps := by
    have hadmits := hinner "steps" (.array (design.steps.map StepDesign.toDocument)) (by simp)
    obtain ⟨within, henter, hwithin⟩ := hadmits.enter_array
    rw [Part.items?_array henter, Option.bind_some, List.mapM_map, List.mapM_map]
    refine (mapM_eq_some fun step hstep => ?_).trans (congrArg some (List.map_id _))
    exact StepDesign.read_toDocument (h step hstep) (hwithin _ (List.mem_map_of_mem hstep))
  rw [WorkflowDesign.read]
  show (Part.fields? _ ⟨design.toDocument, depth⟩).bind _ = _
  rw [WorkflowDesign.toDocument, hfields, Option.bind_some]
  show (DesignOptions.read Json.reader ⟨design.options.toDocument, inner⟩).bind _ = _
  rw [hoptions, Option.bind_some]
  show ((Part.items? ⟨.array (design.steps.map StepDesign.toDocument), inner⟩).bind
    (List.mapM (StepDesign.read Json.reader))).bind _ = _
  rw [hsteps]
  rfl

theorem whole_setField {α : Type} {write : α → Document} {value : Option α} {name : String}
    (h : ∀ x ∈ value, (write x).Whole) {field : String × Document}
    (hfield : field ∈ setField name (value.map write)) : field.2.Whole := by
  cases value with
  | none => simp [setField] at hfield
  | some x =>
    obtain rfl : field = (name, write x) := by simpa [setField] using hfield
    exact h x rfl

def StepData.Whole (data : StepData) : Prop :=
  ∀ entry ∈ data.entries, (Document.ofJson entry.2).Whole

theorem StepData.Whole.toDocument {data : StepData} (h : data.Whole) : data.toDocument.Whole := by
  apply Document.Whole.record
  intro field hfield
  obtain ⟨entry, hentry, rfl⟩ := List.mem_map.mp hfield
  exact h entry hentry

theorem DesignOptions.whole_toDocument (options : DesignOptions) : options.toDocument.Whole := by
  apply Document.Whole.record
  intro field hfield
  rcases List.mem_append.mp hfield with hfield | hfield
  . exact whole_setField (fun b _ => .bool b) hfield
  . exact whole_setField (fun b _ => .bool b) hfield

theorem inRange_toInt (key : StepKey) : Json.InRange key.toInt := by
  have hhigh : key.toInt < 2 ^ 63 := key.toInt_lt
  exact ⟨key.le_toInt, Int.lt_trans hhigh (by decide)⟩

theorem StepDesign.whole_toDocument {step : StepDesign} (h : ∀ data ∈ step.data, data.Whole) :
    step.toDocument.Whole := by
  apply Document.Whole.record
  intro field hfield
  simp only [List.mem_cons, List.mem_append] at hfield
  rcases hfield with rfl | (hfield | hfield) | hfield
  . exact .text _
  . exact whole_setField (fun key _ => .integer (inRange_toInt key)) hfield
  . exact whole_setField (fun name _ => .text name) hfield
  . exact whole_setField (fun data hdata => (h data hdata).toDocument) hfield

def WorkflowDesign.Whole (design : WorkflowDesign) : Prop :=
  ∀ step ∈ design.steps, ∀ data ∈ step.data, data.Whole

theorem WorkflowDesign.Whole.toDocument {design : WorkflowDesign} (h : design.Whole) :
    design.toDocument.Whole := by
  apply Document.Whole.record
  rw [List.forall_mem_cons, List.forall_mem_cons, List.forall_mem_singleton]
  refine ⟨.text _, DesignOptions.whole_toDocument _, .array ?_⟩
  intro d hd
  obtain ⟨step, hstep, rfl⟩ := List.mem_map.mp hd
  exact StepDesign.whole_toDocument (h step hstep)

/--
A design comes back from its document. It comes back from the text of the document as well, where
the numbers in it are whole and it is nested no deeper than texts are read.
-/
theorem WorkflowDesign.reads_back (design : WorkflowDesign) (h : design.WellFormed) :
    WorkflowDesign.read Json.reader ⟨design.toDocument, none⟩ = some design ∧
      (design.Whole → Document.textDepth.Admits design.toDocument.nesting →
        Loadable.ofJsonText? design.toDocument.render = some design) := by
  refine ⟨read_toDocument h (Depth.admits_none _), fun hwhole hdepth => ?_⟩
  have hparse : Document.parse? design.toDocument.render = some design.toDocument :=
    Document.parse?_render hwhole.toDocument
  rw [Loadable.ofJsonText?, Json.readText?, hparse]
  exact read_toDocument h hdepth

def reworkDesign : WorkflowDesign where
  name := "rework"
  options := ⟨some false, none⟩
  steps := [
    ⟨"press", some Int64.minValue, some "", some .empty⟩,
    ⟨"oven", some Int64.maxValue, none, some ⟨[
      ("zone", .null),
      ("curve", .object [("high", .ofNat 230), ("low", .array [.ofInt (-40), .string "\n"])])]⟩⟩,
    ⟨"", none, none, none⟩]

theorem wellFormed_reworkDesign : reworkDesign.WellFormed := by
  simp only [WorkflowDesign.WellFormed, reworkDesign, List.forall_mem_cons, Option.mem_def,
    Option.some.injEq, forall_eq']
  refine ⟨⟨by decide, by simp [Dictionary.empty]⟩, ⟨by decide, ?_⟩, by simp⟩
  rw [List.forall_mem_cons, List.forall_mem_singleton]
  refine ⟨.null, .object (by decide) ?_⟩
  rw [List.forall_mem_cons, List.forall_mem_singleton]
  refine ⟨.number _, .array ?_⟩
  rw [List.forall_mem_cons, List.forall_mem_singleton]
  exact ⟨.number _, .string _⟩

theorem whole_reworkDesign : reworkDesign.Whole := by
  simp only [WorkflowDesign.Whole, reworkDesign, List.forall_mem_cons, Option.mem_def,
    Option.some.injEq, forall_eq']
  refine ⟨by simp [StepData.Whole, Dictionary.empty], ?_, by simp⟩
  rw [StepData.Whole, List.forall_mem_cons, List.forall_mem_singleton]
  refine ⟨.null, ?_⟩
  show (Document.record [("high", .integer 230),
    ("low", .array [.integer (-40), .text "\n"])]).Whole
  apply Document.Whole.record
  rw [List.forall_mem_cons, List.forall_mem_singleton]
  refine ⟨.integer (by decide), .array ?_⟩
  rw [List.forall_mem_cons, List.forall_mem_singleton]
  exact ⟨.integer (by decide), .text _⟩

theorem admits_reworkDesign :
    Document.textDepth.Admits reworkDesign.toDocument.nesting := by
  rintro _ ⟨⟩
  decide

theorem WorkflowDesign.reads_back_reworkDesign :
    reworkDesign.WellFormed ∧ reworkDesign.Whole ∧
      Document.textDepth.Admits reworkDesign.toDocument.nesting ∧
      WorkflowDesign.read Json.reader ⟨reworkDesign.toDocument, none⟩ = some reworkDesign ∧
      Loadable.ofJsonText? reworkDesign.toDocument.render = some reworkDesign := by
  obtain ⟨hdocument, htext⟩ := WorkflowDesign.reads_back reworkDesign wellFormed_reworkDesign
  exact ⟨wellFormed_reworkDesign, whole_reworkDesign, admits_reworkDesign, hdocument,
    htext whole_reworkDesign admits_reworkDesign⟩

end Sequencer
