import AgentLang.Syntax.Decode
import AgentLang.Syntax.Encode

/-!
# Models

A document is read as a value of one model and every value is written as a document. There is a
model for each kind of node, of type and of what nodes are made of, and one for whole programs.
-/

namespace AgentLang

/-- One of some words. -/
abbrev Kind (kinds : List String) : Type := {kind : String // kind ∈ kinds}

inductive Model where
  | type (kind : Kind Decode.typeKinds)
  | segment (kind : Kind Decode.segmentKinds)
  | step (kind : Kind Decode.stepKinds)
  /-- A field of an object. -/
  | entry
  | expr (kind : Kind Decode.expressionKinds)
  | docString
  | node (kind : Kind Decode.statementKinds)
  /-- An arm of a selection, which is not a comment. -/
  | arm
  | program

namespace Model

open Json.Reader (constant model)

def Value : Model → Type
  | .type _ => Ty
  | .segment _ => Segment
  | .step _ => Step
  | .entry => String × Expr
  | .expr _ => Expr
  | .docString => String
  | .node _ => Node
  | .arm => Arm
  | .program => Program

def dump : (m : Model) → m.Value → Json
  | .type _ => Ty.toJson
  | .segment _ => Segment.toJson
  | .step _ => Step.toJson
  | .entry => fun entry => .object [("key", .string entry.1), ("value", entry.2.toJson)]
  | .expr _ => Expr.toJson
  | .docString => docJson
  | .node _ => Node.toJson
  | .arm => Arm.toJson
  | .program => Program.toJson

/-- An access step that can only be of one kind. -/
def onlyStep (kind : String) (fuel : Nat) : Json.Reader Step :=
  model fun location fields =>
    (fun _ step => step) <$> constant "kind" kind location fields
      <*> Decode.stepMember (Decode.expr Decode.expressionKinds fuel)
        (Decode.expr Decode.argumentKinds fuel) kind location fields

def read (fuel : Nat) : (m : Model) → Json.Reader m.Value
  | .type kind => Decode.only kind (Decode.typeMember fuel)
  | .segment kind => Decode.only kind Decode.segmentMember
  | .step kind => onlyStep kind fuel
  | .entry => model (Decode.entryMember (Decode.expr Decode.expressionKinds fuel))
  | .expr kind => Decode.only kind (Decode.exprMember fuel)
  | .docString => Decode.only "docString" fun _ => Decode.docMember
  | .node kind => Decode.only kind (Decode.nodeMember fuel)
  | .arm => Decode.only "matchBlockCase" (Decode.armMember fuel (Decode.node fuel))
  | .program => Decode.program fuel

/-- The value that a document describes. -/
def validate (m : Model) (json : Json) : Json.Checked m.Value :=
  m.read json.readingFuel [] json

end Model
end AgentLang
