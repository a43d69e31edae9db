import AgentLang.Proofs.Compile.Calls
import AgentLang.Proofs.Compile.Leads

/-!
# Helpers for built-ins

A helper is defined where a call needs it: one of a built-in that the program does not declare
itself, in a place that is reached. The helpers of a module are found by going through the list of
built-ins once.
-/

namespace AgentLang.Target.Builtin

open List

variable {found : List Helper} {builtin : Builtin} {helper : Helper} {used : List Builtin}

/-- The helpers that are found with one more built-in. -/
def addHelper (found : List Helper) (builtin : Builtin) : List Helper :=
  match builtin.helper? with
  | some helper => if helper ∈ found then found else found ++ [helper]
  | none => found

theorem mem_addHelper_iff :
    helper ∈ addHelper found builtin ↔ helper ∈ found ∨ builtin.helper? = some helper := by
  unfold addHelper
  split
  · next other hother =>
    rw [hother, Option.some_inj]
    split
    · next hmem =>
      constructor
      · exact .inl
      · rintro (h | rfl)
        · exact h
        · exact hmem
    · rw [mem_append, List.mem_singleton, eq_comm (a := helper)]
  · next hnone => simp [hnone]

theorem nodup_addHelper (h : found.Nodup) : (addHelper found builtin).Nodup := by
  unfold addHelper
  split
  · split
    · exact h
    · next hnew => exact h.append (nodup_singleton _) (by simpa using hnew)
  · exact h

theorem addHelper_sublist :
    (addHelper found builtin).Sublist (found ++ builtin.helper?.toList) := by
  unfold addHelper
  split
  · next hsome =>
    rw [hsome]
    split
    · exact sublist_append_left _ _
    · exact .refl _
  · exact sublist_append_left _ _

/-! ### All built-ins in turn -/

theorem mem_foldl_addHelper_iff (builtins : List Builtin) (found : List Helper) :
    helper ∈ builtins.foldl addHelper found ↔
      helper ∈ found ∨ ∃ builtin ∈ builtins, builtin.helper? = some helper := by
  induction builtins generalizing found with
  | nil => simp
  | cons first rest ih =>
    rw [foldl_cons, ih, mem_addHelper_iff, exists_mem_cons_iff, or_assoc]

theorem nodup_foldl_addHelper (builtins : List Builtin) (h : found.Nodup) :
    (builtins.foldl addHelper found).Nodup := by
  induction builtins generalizing found with
  | nil => exact h
  | cons first rest ih => exact ih (nodup_addHelper h)

theorem foldl_addHelper_sublist (builtins : List Builtin) (found : List Helper) :
    (builtins.foldl addHelper found).Sublist (found ++ builtins.filterMap helper?) := by
  induction builtins generalizing found with
  | nil => simp
  | cons first rest ih =>
    have hrest := (ih (addHelper found first)).trans (addHelper_sublist.append_right _)
    rw [foldl_cons]
    cases hfirst : first.helper? <;> simpa [hfirst] using hrest

theorem mem_all (builtin : Builtin) : builtin ∈ all := by
  cases builtin <;> decide

theorem mem_helpers_iff :
    helper ∈ helpers used ↔ ∃ builtin ∈ used, builtin.helper? = some helper := by
  change helper ∈ (all.filter (· ∈ used)).foldl addHelper [] ↔ _
  rw [mem_foldl_addHelper_iff]
  simp [mem_all]

theorem nodup_helpers (used : List Builtin) : (helpers used).Nodup :=
  nodup_foldl_addHelper _ .nil

theorem helpers_sublist (used : List Builtin) : (helpers used).Sublist (all.filterMap helper?) :=
  (foldl_addHelper_sublist _ []).trans (filter_sublist.filterMap _)

/-! ### Names -/

theorem ofName?_name (builtin : Builtin) : ofName? builtin.name = some builtin := by
  cases builtin <;> decide

theorem ofName?_helperName (helper : Helper) : ofName? helper.name = none := by
  cases helper <;> decide

theorem target_eq_helperName_iff :
    builtin.target = helper.name ↔ builtin.helper? = some helper := by
  cases builtin <;> cases helper <;> decide

theorem helperSource_names (used : List Builtin) :
    AgentLang.helperSource (used.map name) = .ok (helperSource used) := by
  have hknown : (used.map name).filter (fun name => (ofName? name).isNone) = [] := by
    simp [filter_eq_nil_iff, ofName?_name]
  have hfound : (used.map name).filterMap ofName? = used := by
    simp [filterMap_map, ofName?_name]
  rw [AgentLang.helperSource, hknown, hfound]
  rfl

theorem toList_prefix_joinLines (first second : String) (rest : List String) :
    first.toList <+: (Text.joinLines (first :: second :: rest)).toList := by
  rw [Text.joinLines, String.intercalate_cons_cons, String.append_assoc, String.toList_append]
  exact prefix_append _ _

theorem Helper.source_defines (helper : Helper) :
    ("def " ++ helper.name ++ "(").toList <+: helper.source.toList := by
  cases helper <;>
  · refine List.IsPrefix.trans ?_ (toList_prefix_joinLines _ _ _)
    decide +kernel

end AgentLang.Target.Builtin

namespace AgentLang.Target.Module

/-- The helpers that a module defines. -/
def helpers (module : Module) : List Builtin.Helper := Builtin.helpers module.used

/-- The second text of a module holds the definitions of its helpers, each once and in the order of
the list of built-ins. All that is used is known when they are looked up by name. -/
structure DefinesHelpers (module : Module) : Prop where
  text : module.texts[1]? = some ("\n\n".intercalate (module.helpers.map Builtin.Helper.source))
  defines : ∀ helper ∈ module.helpers,
    ("def " ++ helper.name ++ "(").toList <+: helper.source.toList
  nodup : module.helpers.Nodup
  order : module.helpers.Sublist (Builtin.all.filterMap Builtin.helper?)
  lookup : AgentLang.helperSource (module.used.map Builtin.name) =
    .ok ("\n\n".intercalate (module.helpers.map Builtin.Helper.source))

theorem definesHelpers (module : Module) : module.DefinesHelpers where
  text := by
    rw [texts]
    rfl
  defines helper _ := helper.source_defines
  nodup := Builtin.nodup_helpers _
  order := Builtin.helpers_sublist _
  lookup := Builtin.helperSource_names _

end AgentLang.Target.Module

namespace AgentLang.Program

open Compile
open Target (Builtin Call)
open Target.Builtin (Helper)

variable {program : Program} {backend : Backend} {name : String}

theorem functions_subset (program : Program) :
    program.functions ⊆ (Declared.ofProgram program).functions := by
  intro name hname
  obtain ⟨first, hfirst, hnamed⟩ := List.mem_filterMap.mp hname
  exact List.mem_filterMap.mpr
    ⟨first, Node.mem_walkList hfirst (Node.mem_walk_self true first), hnamed⟩

theorem declares_iff : (program.setting backend).declares name ↔
    name ∈ (Declared.ofProgram program).functions ∨ name ∈ (Declared.ofProgram program).nodes := by
  simp only [Setting.declares, Bool.or_eq_true, decide_eq_true_eq]
  rfl

theorem declares_of_isInvoked (h : isInvoked (program.setting backend) name) :
    (program.setting backend).declares name := by
  simp only [isInvoked, Bool.and_eq_true, Bool.or_eq_true, decide_eq_true_eq] at h
  obtain ⟨-, htop | hnode⟩ := h
  · exact declares_iff.mpr (.inl (program.functions_subset htop))
  · exact declares_iff.mpr (.inr hnode)

theorem builtin?_eq_some_iff {called : Called} :
    (program.setting backend).builtin? called = some builtin ↔
      ∃ name, called = .function name ∧ ¬ (program.setting backend).declares name ∧
        Builtin.ofName? name = some builtin := by
  cases called with
  | node target => simp [Setting.builtin?]
  | function function =>
    rw [Setting.builtin?]
    by_cases hdeclares : (program.setting backend).declares function
    · simp [hdeclares]
    · have hinvoked : ¬ isInvoked (program.setting backend) function :=
        fun h => hdeclares (declares_of_isInvoked h)
      simp [hdeclares, hinvoked]

/-- A plain call has the name of a helper where it is one of its built-in, or spells that name. -/
theorem resolved_eq_helperName_iff {setting : Setting} :
    setting.resolved name = helper.name ↔ name = helper.name ∨
      ¬ setting.declares name ∧ (Builtin.ofName? name).bind Builtin.helper? = some helper := by
  unfold Setting.resolved
  by_cases hdeclares : setting.declares name
  · simp [hdeclares]
  · rw [if_neg hdeclares, Builtin.resolve]
    cases hname : Builtin.ofName? name with
    | none => simp
    | some builtin =>
      have hne : name ≠ helper.name := by
        rintro rfl
        rw [Builtin.ofName?_helperName] at hname
        cases hname
      simp [hne, hdeclares, Builtin.target_eq_helperName_iff]

/-- The program calls the built-in of a helper, under a name that it does not declare itself. -/
def Needs (program : Program) (helper : Helper) : Prop :=
  ∃ name, .function name ∈ program.called ∧ name ∉ (Declared.ofProgram program).functions ∧
    name ∉ (Declared.ofProgram program).nodes ∧
    (Builtin.ofName? name).bind Builtin.helper? = some helper

theorem needs_iff : program.Needs helper ↔
    ∃ name, .function name ∈ program.called ∧ ¬ (program.setting backend).declares name ∧
      (Builtin.ofName? name).bind Builtin.helper? = some helper := by
  simp only [Needs, declares_iff, not_or, and_assoc]

variable {options : CompileOptions} {compiled : Compiled}

theorem mem_helpers_of_compile (h : program.compile options = .ok compiled) (helper : Helper) :
    helper ∈ compiled.module.helpers ↔ program.Needs helper := by
  obtain ⟨-, hused⟩ := becomes_of_compile h
  rw [Target.Module.helpers, Builtin.mem_helpers_iff, needs_iff]
  simp only [hused, List.mem_filterMap, builtin?_eq_some_iff, Option.bind_eq_some_iff]
  constructor
  · rintro ⟨builtin, ⟨_, hcalled, name, rfl, hdeclares, hname⟩, hhelper⟩
    exact ⟨name, hcalled, hdeclares, builtin, hname, hhelper⟩
  · rintro ⟨name, hcalled, hdeclares, builtin, hname, hhelper⟩
    exact ⟨builtin, ⟨_, hcalled, name, rfl, hdeclares, hname⟩, hhelper⟩

theorem calls_helper_iff (h : program.compile options = .ok compiled) (helper : Helper) :
    .function helper.name ∈ compiled.module.calls ↔ program.Needs helper ∨
      .function helper.name ∈ program.called ∧
        ¬ isInvoked (program.setting options.backend) helper.name := by
  obtain ⟨hbecomes, -⟩ := becomes_of_compile h
  rw [mem_calls_iff hbecomes, needs_iff]
  constructor
  · rintro (⟨called, hcalled, hroute⟩ | ⟨f, -, hf⟩ | ⟨function, -, hfunction⟩)
    · obtain ⟨name, rfl, hinvoked, hresolved⟩ := Setting.function_mem_route_iff.mp hroute
      obtain rfl | ⟨hdeclares, hname⟩ := resolved_eq_helperName_iff.mp hresolved
      · exact .inr ⟨hcalled, hinvoked⟩
      · exact .inl ⟨name, hcalled, hdeclares, hname⟩
    · exact nomatch hf
    · exact nomatch hfunction
  · rintro (⟨name, hcalled, hdeclares, hname⟩ | ⟨hcalled, hinvoked⟩)
    · refine .inl ⟨_, hcalled, Setting.function_mem_route_iff.mpr ⟨name, rfl, ?_, ?_⟩⟩
      · exact fun hinvoked => hdeclares (declares_of_isInvoked hinvoked)
      · exact resolved_eq_helperName_iff.mpr (.inr ⟨hdeclares, hname⟩)
    · exact .inl ⟨_, hcalled, Setting.function_mem_route_iff.mpr
        ⟨helper.name, rfl, hinvoked, resolved_eq_helperName_iff.mpr (.inl rfl)⟩⟩

/-- Helpers are defined once, in order, and exactly where the program calls one of their built-ins.
The emitted code then calls them by name, and apart from that only where the program spells that
name itself. -/
theorem helpers_defined_iff_needed (h : program.compile options = .ok compiled) :
    compiled.module.DefinesHelpers ∧
    (∀ helper, helper ∈ compiled.module.helpers ↔ program.Needs helper) ∧
    ∀ helper : Helper, .function helper.name ∈ compiled.module.calls ↔
      helper ∈ compiled.module.helpers ∨ .function helper.name ∈ program.called ∧
        ¬ isInvoked (program.setting options.backend) helper.name := by
  refine ⟨compiled.module.definesHelpers, mem_helpers_of_compile h, fun helper => ?_⟩
  rw [calls_helper_iff h, mem_helpers_of_compile h]

/-- Two names of one helper and one of another are called. The rest does not count: a function of
the program, a method, and an arm behind the one that takes all other values. -/
theorem helpers_defined_iff_needed_aliases :
    ∃ program compiled, program = Program.mk [
        .expr (.call "fetchJSON" [.call "fetchJson" [.call "input" []]]),
        .function "f" [] [.function "read" [] [] none none] none none,
        .expr (.call "read" []),
        .expr (.access (.name "x") [.method "write" []]),
        .select (.name "x") [.arm none (.expr (.name "y")),
          .arm (some (.number "1")) (.expr (.call "fetch" []))]] ∧
      program.compile { backend := .graph } = .ok compiled ∧
      compiled.module.helpers = [.input, .fetchJson] ∧
      compiled.module.DefinesHelpers ∧
      program.Needs .input ∧ program.Needs .fetchJson ∧
      ¬ program.Needs .read ∧ ¬ program.Needs .write ∧ ¬ program.Needs .fetch ∧
      .function "_builtin_fetch_json" ∈ compiled.module.calls := by
  refine exists_compiled_of _ rfl (by decide +kernel) fun program compiled hprogram _ hcompile => ?_
  refine compiled_and (·.module.helpers) hcompile (by subst hprogram; decide +kernel) fun hhelpers => ?_
  obtain ⟨hdefines, hneeded, hcalls⟩ := helpers_defined_iff_needed hcompile
  rw [hhelpers] at hneeded hcalls
  refine ⟨hdefines, (hneeded _).mp ?_, (hneeded _).mp ?_, fun h => ?_, fun h => ?_, fun h => ?_,
    (hcalls .fetchJson).mpr (.inl ?_)⟩
  · simp
  · simp
  · simpa using (hneeded _).mpr h
  · simpa using (hneeded _).mpr h
  · simpa using (hneeded _).mpr h
  · simp

end AgentLang.Program
