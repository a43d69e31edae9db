import AgentLang.Target.Module

/-!
# Templates of the emitted code

A template can be filled strictly when every marker in it has an argument. The fixed texts of a
module and the prompt functions are filled that way, so nothing in them is ever left open.
-/

namespace AgentLang

open List

namespace Template

mutual

/-- The names of all markers, printed or not. -/
def markers : Template → List String
  | [] => []
  | piece :: rest => pieceMarkers piece ++ markers rest

def pieceMarkers : TemplatePiece → List String
  | .text _ => []
  | .marker name => [name]
  | .select parts otherwise => partMarkers parts ++ markers otherwise

def partMarkers : List (SectionTest × Template) → List String
  | [] => []
  | (_, body) :: parts => markers body ++ partMarkers parts

end

variable {arguments : Arguments}

mutual

theorem missing?_eq_none : (template : Template) →
    (∀ name ∈ template.markers, (arguments.lookup name).isSome = true) →
    missing? arguments template = none
  | [], _ => rfl
  | piece :: rest, h => by
    have hpiece := missingInPiece?_eq_none piece fun name hn => h name (mem_append_left _ hn)
    have hrest := missing?_eq_none rest fun name hn => h name (mem_append_right _ hn)
    rw [missing?, hpiece, hrest]
    rfl

theorem missingInPiece?_eq_none : (piece : TemplatePiece) →
    (∀ name ∈ pieceMarkers piece, (arguments.lookup name).isSome = true) →
    missingInPiece? arguments piece = none
  | .text _, _ => rfl
  | .marker name, h => if_pos (h name (mem_singleton_self name))
  | .select parts otherwise, h => by
    have hparts := missingInParts?_join parts fun name hn => h name (mem_append_left _ hn)
    have hother := missing?_eq_none otherwise fun name hn => h name (mem_append_right _ hn)
    rw [missingInPiece?, hother]
    cases hcase : missingInParts? arguments parts with
    | none => rfl
    | some missing => exact hparts missing hcase

theorem missingInParts?_join : (parts : List (SectionTest × Template)) →
    (∀ name ∈ partMarkers parts, (arguments.lookup name).isSome = true) →
    ∀ missing, missingInParts? arguments parts = some missing → missing = none
  | [], _ => fun _ h => nomatch h
  | (test, body) :: parts, h => by
    intro missing heq
    have hbody := missing?_eq_none body fun name hn => h name (mem_append_left _ hn)
    rw [missingInParts?] at heq
    split at heq
    · rw [← Option.some.inj heq, hbody]
    · exact missingInParts?_join parts (fun name hn => h name (mem_append_right _ hn))
        missing heq

end

theorem render_eq_fill {template : Template} (given : List String)
    (hgiven : arguments.map Prod.fst = given) (h : ∀ name ∈ template.markers, name ∈ given) :
    template.render arguments = .ok (template.fill arguments) := by
  have hlookup : ∀ name ∈ template.markers, (arguments.lookup name).isSome = true := by
    intro name hn
    obtain ⟨entry, hentry, rfl⟩ := mem_map.mp (hgiven ▸ h name hn)
    exact lookup_isSome_iff.mpr ⟨entry, hentry, beq_self_eq_true _⟩
  rw [render, missing?_eq_none template hlookup]

end Template

namespace Target

/-! ### What the templates are filled with -/

namespace Module

def preludeArguments (module : Module) : Template.Arguments := [
  ("graph", .bool module.graph.isSome),
  ("default_model", .string module.model.compact),
  ("statelog_host", .string module.host.compact)]

def graphArguments (setup : GraphSetup) : Template.Arguments := [
  ("name", .string (Text.quoteAscii setup.name)),
  ("debug", .string (Json.literal (.bool setup.debug)))]

def entryArguments (node : String) : Template.Arguments := [
  ("node_name", .string node), ("node_key", .string (Text.quoteAscii node))]

def mainArguments (module : Module) : Template.Arguments :=
  let optional (text : Option String) : Json := (text.map Json.string).getD .null
  [("start_step", optional (module.steps.head?.map fun temp => Text.quoteAscii temp.toText)),
    ("entry_node", optional module.entries.head?)]

/-- No template of a module is filled with an argument missing. -/
structure Rendered (module : Module) : Prop where
  prelude : preludeTemplate.render module.preludeArguments = .ok module.preludeText
  graph : ∀ setup ∈ module.graph,
    graphTemplate.render (graphArguments setup) = .ok (graphText setup)
  entry : ∀ node ∈ module.entries,
    entryTemplate.render (entryArguments node) = .ok (Section.entryPoint node).toText
  main : mainTemplate.render module.mainArguments = .ok module.mainText
  prompt : ∀ f : PromptFunction,
    ∃ text, PromptFunction.template.render f.arguments = .ok text ∧ f.lines = Text.lines text

theorem rendered (module : Module) : module.Rendered where
  prelude := Template.render_eq_fill ["graph", "default_model", "statelog_host"] rfl (by decide)
  graph _ _ := Template.render_eq_fill ["name", "debug"] rfl (by decide)
  entry _ _ := Template.render_eq_fill ["node_name", "node_key"] rfl (by decide)
  main := Template.render_eq_fill ["start_step", "entry_node"] rfl (by decide)
  prompt f := by
    have hfill : PromptFunction.template.render f.arguments =
        .ok (PromptFunction.template.fill f.arguments) :=
      Template.render_eq_fill ["function_name", "parameters", "prompt", "response_schema", "config",
        "tools"] rfl (by decide)
    exact ⟨_, hfill, rfl⟩

end Module
end Target
end AgentLang
