import AgentLang.Target.Code
import AgentLang.Template

/-!
# Prompt functions

A prompt becomes a function of the names that its text refers to, defined ahead of the statement
that holds the prompt. The function sends the text to the model and returns the response.
-/

namespace AgentLang.Target

structure PromptFunction where
  index : Nat
  parameters : List String
  text : List Segment
  /-- The schema of the response. -/
  schema : Json
  config : Option (List (String × Code))
  tools : List String

/-- Tools by name, or nothing where there are none. -/
def toolTable? (tools : List String) : Option String :=
  if tools.isEmpty then none
  else some ("\x7b" ++ commaSeparated (tools.map fun tool => Text.quoteAscii tool ++ ": " ++ tool)
    ++ "\x7d")

namespace PromptFunction

def template : Template := [
  .text "def ", .marker "function_name", .text "(", .marker "parameters", .text "):\n    prompt = ",
  .marker "prompt",
  .text (Text.joinLines ["",
    "    _ctx.messages.add_user(prompt)",
    "    response = _ctx.client.text(",
    "        messages=_ctx.messages.get_messages(),",
    "        response_schema="]),
  .marker "response_schema", .text ",\n",
  .select [(⟨"config", false⟩, [.text "        config=", .marker "config", .text ",\n"])] [],
  .select [(⟨"tools", false⟩, [.text "        tools=", .marker "tools", .text ",\n"])] [],
  .text (Text.joinLines ["    )",
    "    _ctx.messages.add_assistant(response.output)",
    "    _statelog.log(\"prompt\", \x7b\"prompt\": prompt, \"output\": response.output\x7d)",
    "    return response.output"])]

def arguments (f : PromptFunction) : Template.Arguments :=
  let optional (text : Option String) : Json := (text.map Json.string).getD .null
  [("function_name", .string (Temp.mk .prompt f.index).toText),
    ("parameters", .string (commaSeparated f.parameters)),
    ("prompt", .string (stringLiteral f.text false)),
    ("response_schema", .string f.schema.literal),
    ("config", optional (f.config.map fun entries => (Code.dict entries).toText)),
    ("tools", optional (toolTable? f.tools))]

/-- The lines of the definition. -/
def lines (f : PromptFunction) : List String :=
  Text.lines (template.fill f.arguments)

end PromptFunction
end AgentLang.Target
