import AgentLang.Files.Tree
import AgentLang.Main
import AgentLang.Proofs.Compile.Branches
import AgentLang.Proofs.Compile.Builtins
import AgentLang.Proofs.Compile.Globals
import AgentLang.Proofs.Compile.History
import AgentLang.Proofs.Compile.Hygiene
import AgentLang.Proofs.Compile.Layouts
import AgentLang.Proofs.Compile.Literals
import AgentLang.Proofs.Compile.Registered
import AgentLang.Proofs.Compile.Returns
import AgentLang.Proofs.Compile.Selection
import AgentLang.Proofs.Compile.Totality
import AgentLang.Proofs.Compile.Updates
import AgentLang.Proofs.Compile.Visited
import AgentLang.Proofs.Diagnostic
import AgentLang.Proofs.Evaluation
import AgentLang.Proofs.Grammar.Chains
import AgentLang.Proofs.Grammar.ErrorLocation
import AgentLang.Proofs.Grammar.Locality
import AgentLang.Proofs.Grammar.QuotationSpelling
import AgentLang.Proofs.Grammar.Semicolons
import AgentLang.Proofs.Grammar.TypeSpelling
import AgentLang.Proofs.Parse.Choice
import AgentLang.Proofs.Parse.Finality
import AgentLang.Proofs.Parse.Range
import AgentLang.Proofs.Parse.Separation
import AgentLang.Proofs.Syntax.RoundTrip
import AgentLang.Proofs.Target.Documentation
import AgentLang.Proofs.Target.Suites
