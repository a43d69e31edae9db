import AgentLang.Proofs.Target.Parts
import Mathlib

/-!
# Calls in emitted code

Every call stands in the body of a function or of the module. It can use the functions for prompts
that are defined ahead of it in the same body, at its own depth or around it. A definition begins a
body of its own, and what is defined inside a block is not known behind it.
-/

namespace AgentLang.Target

open List

/-- A call in emitted code. -/
inductive Call where
  | prompt (index : Nat) (arguments : List String)
  | function (name : String)
  /-- A call that goes through the graph. -/
  | invoke (function : String)
  /-- A call of the node that control is passed to. -/
  | transfer (node : String)
  /-- The call of a function by the node that is made of it. -/
  | wrapped (function : String)
  deriving DecidableEq, Repr

/-- The name in front of the arguments. -/
def Call.callee : Call → String
  | .prompt index _ => (Temp.mk .prompt index).toText
  | .function name => name
  | .invoke _ => "graph.invoke"
  | .transfer node => node
  | .wrapped name => name

namespace Code

mutual

/-- The calls in an expression. Methods are not called by name. -/
def calls : Code → List Call
  | .prompt index parameters => [.prompt index parameters]
  | .access base links => base.calls ++ linksCalls links
  | .list items => listCalls items
  | .dict entries => entriesCalls entries
  | .call function arguments => .function function :: listCalls arguments
  | .invoke function arguments => .invoke function :: listCalls arguments
  | .binary _ left right => left.calls ++ right.calls
  | _ => []

def listCalls : List Code → List Call
  | [] => []
  | code :: codes => code.calls ++ listCalls codes

def entriesCalls : List (String × Code) → List Call
  | [] => []
  | (_, value) :: entries => value.calls ++ entriesCalls entries

def linksCalls : List Link → List Call
  | [] => []
  | .property _ :: links => linksCalls links
  | .index index :: links => index.calls ++ linksCalls links
  | .method _ arguments :: links => listCalls arguments ++ linksCalls links

end

/-- The calls in a value that may be missing. -/
def optionCalls : Option Code → List Call
  | none => []
  | some value => value.calls

/-- The calls in a configuration that may be missing. -/
def configCalls : Option (List (String × Code)) → List Call
  | none => []
  | some entries => entriesCalls entries

end Code

namespace PromptFunction

/-- The name under which the function is defined. -/
def name (f : PromptFunction) : String := (Temp.mk .prompt f.index).toText

/-- The call of the function with its own parameters. -/
def call (f : PromptFunction) : Call := .prompt f.index f.parameters

/-- The calls inside of the function. -/
def calls (f : PromptFunction) : List Call := Code.configCalls f.config

end PromptFunction

/-! ### Calls and what they can use -/

/-- A call together with the functions for prompts that are defined ahead of it in its body. -/
structure Site where
  visible : List PromptFunction
  call : Call

/-- A prompt is only asked by a call of a function that is defined ahead. -/
def Site.Defined (site : Site) : Prop :=
  ∀ index arguments, site.call = .prompt index arguments → site.call ∈ site.visible.map (·.call)

namespace Stmt

/-- Calls at one place. -/
def here (known : List PromptFunction) (calls : List Call) : List Site :=
  calls.map (Site.mk known)

mutual

/-- The calls in a statement, behind the given functions. -/
def sites (known : List PromptFunction) : Stmt → List Site
  | .prompt function => here known function.calls
  | .expr value => here known value.calls
  | .assign _ _ value => here known value.calls
  | .hold _ value => here known value.calls
  | .setModel value => here known value.calls
  | .setMessages value => here known value.calls
  | .discard value => here known (Code.optionCalls value)
  | .ret value => here known (Code.optionCalls value)
  | .retData value => here known (Code.optionCalls value)
  | .call function arguments => here known (.transfer function :: Code.listCalls arguments)
  | .retCall function arguments => here known (.transfer function :: Code.listCalls arguments)
  | .goTo _ _ arguments => here known (Code.listCalls arguments)
  | .runGraph _ arguments => here known (Code.listCalls arguments)
  | .define _ _ _ _ body => listSites [] body
  | .defineNode _ body => listSites [] body
  | .ifChain branches otherwise => branchSites known branches ++ otherwiseSites known otherwise
  | .loop condition body => here known condition.calls ++ listSites known body
  | .select _ value arms otherwise =>
    here known value.calls ++ choiceSites known arms ++ otherwiseSites known otherwise
  | .thread _ _ body _ => listSites known body
  | .timed _ body _ _ => listSites known body
  | _ => []

/-- A function for a prompt is known behind its definition. -/
def listSites (known : List PromptFunction) : List Stmt → List Site
  | [] => []
  | stmt :: stmts => stmt.sites known ++ listSites (known ++ stmt.prompt?.toList) stmts

def branchSites (known : List PromptFunction) : List (Code × List Stmt) → List Site
  | [] => []
  | (condition, body) :: branches =>
    here known condition.calls ++ listSites known body ++ branchSites known branches

def otherwiseSites (known : List PromptFunction) : Option (List Stmt) → List Site
  | none => []
  | some body => listSites known body

def choiceSites (known : List PromptFunction) : List Choice → List Site
  | [] => []
  | .note _ :: arms => choiceSites known arms
  | .case value body :: arms =>
    here known value.calls ++ listSites known body ++ choiceSites known arms

end

/-- The calls in statements. -/
def listCalls (stmts : List Stmt) : List Call := (listSites [] stmts).map Site.call

def branchCalls (branches : List (Code × List Stmt)) : List Call :=
  (branchSites [] branches).map Site.call

def otherwiseCalls (otherwise : Option (List Stmt)) : List Call :=
  (otherwiseSites [] otherwise).map Site.call

def choiceCalls (arms : List Choice) : List Call := (choiceSites [] arms).map Site.call

@[simp] theorem map_call_here (known : List PromptFunction) (calls : List Call) :
    (here known calls).map Site.call = calls := by
  simp [here, Function.comp_def]

mutual

theorem map_call_sites (known : List PromptFunction) (stmt : Stmt) :
    (stmt.sites known).map Site.call = (stmt.sites []).map Site.call := by
  cases stmt with
  | ifChain branches otherwise =>
    simp only [sites, map_append, map_call_branchSites known, map_call_otherwiseSites known]
  | loop condition body =>
    simp only [sites, map_append, map_call_here, map_call_listSites known]
  | select subject value arms otherwise =>
    simp only [sites, map_append, map_call_here, map_call_choiceSites known,
      map_call_otherwiseSites known]
  | thread | timed => simp only [sites, map_call_listSites known]
  | _ => simp only [sites, map_call_here]
termination_by structural stmt

theorem map_call_listSites (known : List PromptFunction) (stmts : List Stmt) :
    (listSites known stmts).map Site.call = (listSites [] stmts).map Site.call := by
  cases stmts with
  | nil => rfl
  | cons stmt rest =>
    simp only [listSites, map_append, map_call_sites known,
      map_call_listSites (known ++ stmt.prompt?.toList) rest,
      map_call_listSites ([] ++ stmt.prompt?.toList) rest]
termination_by structural stmts

theorem map_call_branchSites (known : List PromptFunction) (branches : List (Code × List Stmt)) :
    (branchSites known branches).map Site.call = (branchSites [] branches).map Site.call := by
  cases branches with
  | nil => rfl
  | cons branch rest =>
    obtain ⟨condition, body⟩ := branch
    simp only [branchSites, map_append, map_call_here, map_call_listSites known,
      map_call_branchSites known rest]
termination_by structural branches

theorem map_call_otherwiseSites (known : List PromptFunction) (otherwise : Option (List Stmt)) :
    (otherwiseSites known otherwise).map Site.call =
      (otherwiseSites [] otherwise).map Site.call := by
  cases otherwise with
  | none => rfl
  | some body => exact map_call_listSites known body
termination_by structural otherwise

theorem map_call_choiceSites (known : List PromptFunction) (arms : List Choice) :
    (choiceSites known arms).map Site.call = (choiceSites [] arms).map Site.call := by
  cases arms with
  | nil => rfl
  | cons arm rest =>
    cases arm with
    | note line => exact map_call_choiceSites known rest
    | case value body =>
      simp only [choiceSites, map_append, map_call_here, map_call_listSites known,
        map_call_choiceSites known rest]
termination_by structural arms

end

theorem listSites_append (known : List PromptFunction) (stmts others : List Stmt) :
    listSites known (stmts ++ others) =
      listSites known stmts ++ listSites (known ++ stmts.filterMap prompt?) others := by
  induction stmts generalizing known with
  | nil => simp [listSites]
  | cons stmt rest ih =>
    rw [cons_append, listSites, ih, listSites]
    cases hprompt : stmt.prompt? with
    | none | some => simp [hprompt]

/-- The number of the temporary name that a statement introduces. -/
def number? : Stmt → Option Nat
  | .prompt function => some function.index
  | .hold temp _ => some temp.index
  | .select subject .. => some subject.index
  | .thread saved .. => some saved.index
  | .timed index .. => some index
  | _ => none

/-- A statement without others inside it that introduces nothing and makes these calls. -/
structure Leaf (stmt : Stmt) (calls : List Call) : Prop where
  sites : ∀ known, stmt.sites known = here known calls
  parts : stmt.parts = [stmt]
  prompt? : stmt.prompt? = none
  number? : stmt.number? = none

end Stmt

/-! ### Tallies -/

/-- The calls of some code, the functions for prompts that it defines and the numbers of the
temporary names that it introduces. -/
@[ext]
structure Tally where
  calls : Multiset Call
  prompts : Multiset PromptFunction
  numbers : Multiset Nat

namespace Tally

instance : Zero Tally := ⟨⟨0, 0, 0⟩⟩

instance : Add Tally :=
  ⟨fun a b => ⟨a.calls + b.calls, a.prompts + b.prompts, a.numbers + b.numbers⟩⟩

@[simp] theorem calls_zero : (0 : Tally).calls = 0 := rfl

@[simp] theorem prompts_zero : (0 : Tally).prompts = 0 := rfl

@[simp] theorem numbers_zero : (0 : Tally).numbers = 0 := rfl

@[simp] theorem calls_add (a b : Tally) : (a + b).calls = a.calls + b.calls := rfl

@[simp] theorem prompts_add (a b : Tally) : (a + b).prompts = a.prompts + b.prompts := rfl

@[simp] theorem numbers_add (a b : Tally) : (a + b).numbers = a.numbers + b.numbers := rfl

instance : AddCommMonoid Tally where
  add_assoc a b c := by ext1 <;> simp [add_assoc]
  zero_add a := by ext1 <;> simp
  add_zero a := by ext1 <;> simp
  add_comm a b := by ext1 <;> simp [add_comm]
  nsmul := nsmulRec

def ofCalls (calls : List Call) : Tally := ⟨calls, 0, 0⟩

def ofNumber (number : Nat) : Tally := ⟨0, 0, {number}⟩

/-- The definition of a function, apart from the calls in it. -/
def ofPrompt (f : PromptFunction) : Tally := ⟨0, {f}, {f.index}⟩

@[simp] theorem ofCalls_nil : ofCalls [] = 0 := rfl

@[simp] theorem ofCalls_append (calls others : List Call) :
    ofCalls (calls ++ others) = ofCalls calls + ofCalls others := by
  ext1 <;> simp [ofCalls]

end Tally

namespace Stmt

open Tally

def tally (stmts : List Stmt) : Tally :=
  ⟨listCalls stmts, (listParts stmts).filterMap prompt?, (listParts stmts).filterMap number?⟩

def branchTally (branches : List (Code × List Stmt)) : Tally :=
  ⟨branchCalls branches, (branchParts branches).filterMap prompt?,
    (branchParts branches).filterMap number?⟩

def otherwiseTally (otherwise : Option (List Stmt)) : Tally :=
  ⟨otherwiseCalls otherwise, (otherwiseParts otherwise).filterMap prompt?,
    (otherwiseParts otherwise).filterMap number?⟩

def choiceTally (arms : List Choice) : Tally :=
  ⟨choiceCalls arms, (choiceParts arms).filterMap prompt?, (choiceParts arms).filterMap number?⟩

@[simp] theorem tally_nil : tally [] = 0 := rfl

@[simp] theorem tally_append (stmts others : List Stmt) :
    tally (stmts ++ others) = tally stmts + tally others := by
  ext1
  · simp [tally, listCalls, listSites_append, map_call_listSites (stmts.filterMap prompt?)]
  · simp [tally, listParts_append]
  · simp [tally, listParts_append]

theorem tally_cons (stmt : Stmt) (stmts : List Stmt) :
    tally (stmt :: stmts) = tally [stmt] + tally stmts :=
  tally_append [stmt] stmts

theorem tally_singleton (hparts : stmt.parts = stmt :: inside) :
    tally [stmt] = ⟨(stmt.sites []).map Site.call,
      stmt.prompt?.toList ++ inside.filterMap prompt?,
      stmt.number?.toList ++ inside.filterMap number?⟩ := by
  ext1
  · simp [tally, listCalls, listSites]
  · cases hprompt : stmt.prompt? <;>
      simp [tally, listParts_singleton, hparts, hprompt, filterMap_cons]
  · cases hnumber : stmt.number? <;>
      simp [tally, listParts_singleton, hparts, hnumber, filterMap_cons]

theorem tally_leaf {calls : List Call} (h : stmt.Leaf calls) : tally [stmt] = ofCalls calls := by
  rw [tally_singleton h.parts, h.sites, map_call_here, h.prompt?, h.number?]
  rfl

theorem tally_plain (h : stmt.Leaf []) : tally [stmt] = 0 :=
  tally_leaf h

theorem tally_prompt (f : PromptFunction) : tally [.prompt f] = ofCalls f.calls + ofPrompt f := by
  rw [tally_singleton rfl, sites, map_call_here]
  ext1 <;> simp [ofCalls, ofPrompt, prompt?, number?]

theorem tally_hold (temp : Temp) (value : Code) :
    tally [.hold temp value] = ofNumber temp.index + ofCalls value.calls := by
  rw [tally_singleton rfl, sites, map_call_here]
  ext1 <;> simp [ofCalls, ofNumber, prompt?, number?]

theorem tally_define (name : String) (parameters : List (String × Option String))
    (returns doc : Option String) (body : List Stmt) :
    tally [.define name parameters returns doc body] = tally body :=
  tally_singleton rfl

theorem tally_defineNode (name : String) (body : List Stmt) :
    tally [.defineNode name body] = tally body :=
  tally_singleton rfl

theorem tally_ifChain (branches : List (Code × List Stmt)) (otherwise : Option (List Stmt)) :
    tally [.ifChain branches otherwise] = branchTally branches + otherwiseTally otherwise := by
  have hparts : (Stmt.ifChain branches otherwise).parts = .ifChain branches otherwise ::
      (branchParts branches ++ otherwiseParts otherwise) := rfl
  rw [tally_singleton hparts, sites, map_append, filterMap_append, filterMap_append]
  rfl

theorem tally_loop (condition : Code) (body : List Stmt) :
    tally [.loop condition body] = ofCalls condition.calls + tally body := by
  rw [tally_singleton rfl, sites, map_append, map_call_here]
  rfl

theorem tally_select (subject : Temp) (value : Code) (arms : List Choice)
    (otherwise : Option (List Stmt)) :
    tally [.select subject value arms otherwise] =
      ofNumber subject.index + ofCalls value.calls + choiceTally arms +
        otherwiseTally otherwise := by
  have hparts : (Stmt.select subject value arms otherwise).parts =
      .select subject value arms otherwise :: (choiceParts arms ++ otherwiseParts otherwise) := rfl
  rw [tally_singleton hparts, sites, map_append, map_append, map_call_here,
    filterMap_append, filterMap_append]
  rfl

theorem tally_thread (saved : Temp) (kind : ThreadKind) (body : List Stmt)
    (binding : Option String) :
    tally [.thread saved kind body binding] = ofNumber saved.index + tally body :=
  tally_singleton rfl

theorem tally_timed (index : Nat) (body : List Stmt) (prints : Bool) (binding : Option String) :
    tally [.timed index body prints binding] = ofNumber index + tally body :=
  tally_singleton rfl

theorem tally_if {p : Prop} [Decidable p] (h : tally [stmt] = 0) :
    tally (if p then [] else [stmt]) = 0 := by
  split
  · rfl
  · exact h

theorem tally_notes (lines : List String) : tally (lines.map .note) = 0 := by
  induction lines with
  | nil => rfl
  | cons line rest ih =>
    rw [map_cons, tally_cons, ih, tally_plain ⟨fun _ => rfl, rfl, rfl, rfl⟩, add_zero]

@[simp] theorem branchTally_nil : branchTally [] = 0 := rfl

theorem branchTally_cons (condition : Code) (body : List Stmt)
    (branches : List (Code × List Stmt)) :
    branchTally ((condition, body) :: branches) =
      ofCalls condition.calls + tally body + branchTally branches := by
  ext1
  · simp [branchTally, branchCalls, branchSites, tally, listCalls, ofCalls, add_assoc]
  · simp [branchTally, branchParts, tally, ofCalls]
  · simp [branchTally, branchParts, tally, ofCalls]

@[simp] theorem otherwiseTally_none : otherwiseTally none = 0 := rfl

@[simp] theorem otherwiseTally_some (body : List Stmt) :
    otherwiseTally (some body) = tally body := rfl

@[simp] theorem choiceTally_nil : choiceTally [] = 0 := rfl

theorem choiceTally_case (value : Code) (body : List Stmt) (arms : List Choice) :
    choiceTally (.case value body :: arms) =
      ofCalls value.calls + tally body + choiceTally arms := by
  ext1
  · simp [choiceTally, choiceCalls, choiceSites, tally, listCalls, ofCalls, add_assoc]
  · simp [choiceTally, choiceParts, tally, ofCalls]
  · simp [choiceTally, choiceParts, tally, ofCalls]

end Stmt

/-! ### Modules -/

theorem Stmt.indices_sublist (stmts : List Stmt) :
    ((stmts.filterMap prompt?).map PromptFunction.index).Sublist (stmts.filterMap number?) := by
  induction stmts with
  | nil => exact .slnil
  | cons stmt rest ih =>
    cases stmt with
    | prompt function => exact ih.cons_cons function.index
    | hold | select | thread | timed => exact ih.cons _
    | _ => exact ih

theorem Stmt.indices_le (stmts : List Stmt) :
    (tally stmts).prompts.map PromptFunction.index ≤ (tally stmts).numbers :=
  Multiset.coe_le.mpr (indices_sublist _).subperm

namespace Section

/-- The calls in a section, the one by which a node runs its function included. -/
def sites : Section → List Site
  | .statements body => Stmt.listSites [] body
  | .functionNode name _ _ => [⟨[], .wrapped name⟩]
  | .entryPoint _ => []
  | .step _ _ body => Stmt.listSites [] body

/-- The function that a section makes a node of. -/
def wraps? : Section → Option String
  | .functionNode name _ _ => some name
  | _ => none

def tally : Section → Tally
  | .statements body => Stmt.tally body
  | .functionNode _ _ holder => Tally.ofNumber holder.index
  | .entryPoint _ => 0
  | .step temp _ body => Tally.ofNumber temp.index + Stmt.tally body

def listTally (sections : List Section) : Tally := (sections.map tally).sum

@[simp] theorem listTally_nil : listTally [] = 0 := rfl

@[simp] theorem listTally_cons (part : Section) (sections : List Section) :
    listTally (part :: sections) = part.tally + listTally sections := by
  simp [listTally]

@[simp] theorem listTally_append (sections others : List Section) :
    listTally (sections ++ others) = listTally sections + listTally others := by
  simp [listTally]

theorem calls_eq (part : Section) :
    (part.sites.map Site.call : Multiset Call) =
      part.tally.calls + (part.wraps?.toList.map Call.wrapped : List Call) := by
  cases part with
  | statements body => simp [sites, tally, wraps?, Stmt.tally, Stmt.listCalls]
  | functionNode name arity holder => simp [sites, tally, wraps?, Tally.ofNumber]
  | entryPoint node => simp [sites, tally, wraps?]
  | step temp assigned body =>
    simp [sites, tally, wraps?, Tally.ofNumber, Stmt.tally, Stmt.listCalls]

theorem indices_le (sections : List Section) :
    (listTally sections).prompts.map PromptFunction.index ≤ (listTally sections).numbers := by
  induction sections with
  | nil => simp
  | cons part rest ih =>
    have hpart : part.tally.prompts.map PromptFunction.index ≤ part.tally.numbers := by
      cases part with
      | statements body => exact Stmt.indices_le body
      | functionNode name arity holder => simp [tally, Tally.ofNumber]
      | entryPoint node => simp [tally]
      | step temp assigned body =>
        simp only [tally, Tally.prompts_add, Tally.numbers_add, Tally.ofNumber, zero_add]
        exact (Stmt.indices_le body).trans (Multiset.le_add_left ..)
    rw [listTally_cons, Tally.prompts_add, Tally.numbers_add, Multiset.map_add]
    exact add_le_add hpart ih

theorem prompts_eq (part : Section) :
    (part.parts.filterMap Stmt.prompt? : Multiset PromptFunction) = part.tally.prompts := by
  cases part with
  | statements | functionNode | entryPoint => rfl
  | step temp assigned body => simp [parts, tally, Tally.ofNumber, Stmt.tally]

end Section

namespace Module

def sites (module : Module) : List Site := module.sections.flatMap Section.sites

/-- All calls of a module. -/
def calls (module : Module) : List Call := module.sites.map Site.call

/-- The functions that are made nodes of. -/
def wrapped (module : Module) : List String := module.sections.filterMap Section.wraps?

theorem calls_eq (module : Module) :
    (module.calls : Multiset Call) = (Section.listTally module.sections).calls +
      (module.wrapped.map Call.wrapped : List Call) := by
  unfold calls sites wrapped
  induction module.sections with
  | nil => rfl
  | cons part rest ih =>
    have hwraps : (part :: rest).filterMap Section.wraps? =
        part.wraps?.toList ++ rest.filterMap Section.wraps? := by
      cases hpart : part.wraps? <;> simp [hpart]
    rw [flatMap_cons, map_append, ← Multiset.coe_add, ih, part.calls_eq, hwraps,
      map_append, ← Multiset.coe_add, Section.listTally_cons, Tally.calls_add]
    abel

theorem prompts_eq (module : Module) :
    (module.prompts : Multiset PromptFunction) = (Section.listTally module.sections).prompts := by
  unfold prompts parts
  induction module.sections with
  | nil => rfl
  | cons part rest ih =>
    rw [flatMap_cons, filterMap_append, ← Multiset.coe_add, ih, part.prompts_eq]
    simp

end Module
end AgentLang.Target
