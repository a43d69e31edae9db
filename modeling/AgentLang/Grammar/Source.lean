import AgentLang.Diagnostic
import AgentLang.Grammar.Declaration

/-!
# Source texts

The bodies of all rules, and how a rule or a whole text is read.
-/

namespace AgentLang.Grammar

open Parse (Cursor Reply)

def statementBody : Parser Node :=
  .choice [importStatement, functionDefinition, graphNodeDefinition, typeHint, specialVar,
    returnStatement, goto, usesTool, ifElse, whileLoop, selection, messageThread, timeBlock,
    assignment, .expr <$> value]

def bodyOf : (r : Rule) → Parser r.Out
  | .type => typeBody
  | .argument => argumentBody
  | .item => itemBody
  | .statement => statementBody
  | .armBody => armBodyBody
  | .ifElse => ifElseBody
  | .number => numberLiteral
  | .scalar => scalarLiteral
  | .call => callBody
  | .array => arrayBody
  | .object => objectBody
  | .prompt => promptBody
  | .literal => literalBody
  | .access => accessBody
  | .operand => operandBody
  | .binary => binaryBody
  | .value => valueBody
  | .condition => conditionBody

/-- The grammar of the language. -/
def grammar : Parse.Grammar language where
  body := bodyOf
  memoised := Rule.memoised

def program : Parser Program :=
  Program.mk <$> (.many bodyItem <* space <* .eof)

/-- Depth enough for any text. -/
def depthFor (text : List Char) : Nat :=
  Parse.Grammar.depthFor Rule.all.length text

/-- Runs a parser of the language on a text from a position. -/
def run? {α : Type} (p : Parser α) (text : List Char) (pos : Nat) : Option (Reply α) :=
  let session := grammar.session (Parse.Grammar.roundsFor text) (depthFor text) p
    (Cursor.ofPos text pos)
  (session.run {}).map (·.1)

/-- What stands where a text cannot be read on. -/
def unexpected (text : List Char) (position : Nat) : String :=
  let rest := text.drop position
  if rest.head?.any fun c => c == '\r' || c == '\n' then "Unexpected end of line"
  else
    match Text.firstWord rest with
    | [] => "Unexpected end of input"
    | word => "Unexpected '" ++ String.ofList (word.take 20) ++ "'"

/-- The error for a failed run, at the furthest place that was reached. -/
def errorOf (source : String) (file : Option Path) (pos : Nat) (committed : Option String)
    (reach : Parse.Reach) : ParseError :=
  let position := max (reach.pos?.getD 0) pos
  ⟨committed.getD (unexpected source.toList position), position, reach.names, source, file⟩

end AgentLang.Grammar

namespace AgentLang

/-- Reads a source text. -/
def Program.parse (source : String) (file : Option Path) : Except ParseError Program :=
  match Grammar.run? Grammar.program source.toList 0 with
  | some ⟨.success program _, _⟩ => .ok program
  | some ⟨.failure pos committed, reach⟩ => .error (Grammar.errorOf source file pos committed reach)
  | none => .error ⟨"Source nests too deeply", 0, ∅, source, file⟩

end AgentLang
