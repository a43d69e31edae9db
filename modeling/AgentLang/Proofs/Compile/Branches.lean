import AgentLang.Proofs.Compile.Outcome
import AgentLang.Proofs.Target.Clauses

/-!
# The choice among branches

Branchings inside of each other become one chain of clauses, and so does a selection. Whatever the
conditions come out as, the chain runs what is emitted for the branch that the source chooses.
-/

namespace AgentLang

open List
open Target (pick)

/-! ### Branchings -/

namespace Node

def isBranching : Node → Bool
  | .ifElse .. => true
  | _ => false

/-- The conditions of a tree of branchings with what they guard. The tree goes on where all that is
left is a single branching. -/
def guarded : Node → List (Expr × List Node)
  | .ifElse condition thenBody (some [nested]) => (condition, thenBody) :: guarded nested
  | .ifElse condition thenBody _ => [(condition, thenBody)]
  | _ => []

/-- What is left behind all conditions of a tree of branchings. -/
def fallback : Node → Option (List Node)
  | .ifElse _ _ (some [nested]) => if nested.isBranching then fallback nested else some [nested]
  | .ifElse _ _ other => other
  | _ => none

/-- The branch that a tree of branchings chooses, where conditions are numbered from the outermost
on. -/
def chosen (holds : Nat → Bool) (index : Nat) : Node → Option (List Node)
  | .ifElse _ thenBody (some [nested]) =>
    if holds index then some thenBody
    else if nested.isBranching then chosen holds (index + 1) nested
    else some [nested]
  | .ifElse _ thenBody other => if holds index then some thenBody else other
  | _ => none

/-- What is left does not continue a tree of branchings. -/
def Ends (other : Option (List Node)) : Prop :=
  ∀ condition thenBody elseBody, other ≠ some [.ifElse condition thenBody elseBody]

theorem ends_of_not_branching (h : nested.isBranching = false) : Ends (some [nested]) := by
  intro condition thenBody elseBody heq
  cases heq
  exact nomatch h

theorem Ends.tree (h : Ends other) (condition : Expr) (thenBody : List Node) :
    guarded (.ifElse condition thenBody other) = [(condition, thenBody)] ∧
      fallback (.ifElse condition thenBody other) = other ∧
      ∀ holds index, chosen holds index (.ifElse condition thenBody other) =
        if holds index then some thenBody else other := by
  match other, h with
  | none, _ => exact ⟨rfl, rfl, fun _ _ => rfl⟩
  | some [], _ | some (_ :: _ :: _), _ => exact ⟨rfl, rfl, fun _ _ => rfl⟩
  | some [nested], h =>
    cases nested with
    | ifElse => exact absurd rfl (h _ _ _)
    | _ => exact ⟨rfl, rfl, fun _ _ => rfl⟩

theorem fallback_nested (condition : Expr) (thenBody : List Node) (h : nested.isBranching) :
    fallback (.ifElse condition thenBody (some [nested])) = nested.fallback :=
  if_pos h

theorem guarded_ne_nil (condition : Expr) (thenBody : List Node) (other : Option (List Node)) :
    guarded (.ifElse condition thenBody other) ≠ [] := by
  unfold guarded
  split <;> simp_all

theorem ends_fallback (tree : Node) : Ends tree.fallback := by
  induction tree using guarded.induct with
  | case1 condition thenBody nested ih =>
    cases hnested : nested.isBranching with
    | true => rwa [fallback_nested condition thenBody hnested]
    | false =>
      have hends := ends_of_not_branching hnested
      rwa [(hends.tree condition thenBody).2.1]
  | case2 condition thenBody other hother =>
    have hends : Ends other := fun _ _ _ => hother _
    rwa [(hends.tree condition thenBody).2.1]
  | case3 tree _ hother =>
    cases tree with
    | ifElse => exact absurd rfl (hother _ _ _)
    | _ => exact nofun

/-- A tree of branchings chooses the first branch whose condition holds, or else what is left. -/
theorem chosen_eq_pick (holds : Nat → Bool) (index : Nat) (h : tree.isBranching) :
    chosen holds index tree = pick holds index (tree.guarded.map Prod.snd) tree.fallback := by
  induction tree using guarded.induct generalizing index with
  | case1 condition thenBody nested ih =>
    cases hnested : nested.isBranching with
    | true =>
      rw [fallback_nested condition thenBody hnested, guarded, map_cons, pick,
        ← ih (index + 1) hnested, chosen, hnested]
      rfl
    | false =>
      have hends := ends_of_not_branching hnested
      obtain ⟨hguarded, hfallback, hchosen⟩ := hends.tree condition thenBody
      rw [hguarded, hfallback, hchosen]
      rfl
  | case2 condition thenBody other hother =>
    have hends : Ends other := fun _ _ _ => hother _
    obtain ⟨hguarded, hfallback, hchosen⟩ := hends.tree condition thenBody
    rw [hguarded, hfallback, hchosen]
    rfl
  | case3 tree _ hother =>
    cases tree with
    | ifElse => exact absurd rfl (hother _ _ _)
    | _ => exact absurd h Bool.false_ne_true

end Node

/-! ### Selections -/

namespace Arm

/-- The values of the arms with what they guard, up to the arm that takes what is left. -/
def guarded : List Arm → List (Expr × List Node)
  | [] => []
  | .comment _ :: rest => guarded rest
  | .arm none _ :: _ => []
  | .arm (some value) body :: rest => (value, [body]) :: guarded rest

/-- The first arm that takes what is left. -/
def fallback : List Arm → Option (List Node)
  | [] => none
  | .arm none body :: _ => some [body]
  | _ :: rest => fallback rest

/-- The comments ahead of the arm that takes what is left. -/
def notes : List Arm → List String
  | [] => []
  | .comment text :: rest => ("#" ++ text) :: notes rest
  | .arm none _ :: _ => []
  | .arm (some _) _ :: rest => notes rest

/-- The arm that is chosen, in the order of the source, where the values that are compared with the
subject are numbered. -/
def chosen (holds : Nat → Bool) (index : Nat) : List Arm → Option (List Node)
  | [] => none
  | .comment _ :: rest => chosen holds index rest
  | .arm none body :: _ => some [body]
  | .arm (some _) body :: rest => if holds index then some [body] else chosen holds (index + 1) rest

theorem isNote_of_mem_notes : ∀ line ∈ notes arms, Target.isNote line := by
  induction arms with
  | nil => exact forall_mem_nil _
  | cons first rest ih =>
    match first with
    | .comment text => exact forall_mem_cons.mpr ⟨by simp [Target.isNote], ih⟩
    | .arm none _ => exact forall_mem_nil _
    | .arm (some _) _ => exact ih

theorem chosen_eq_pick (holds : Nat → Bool) (index : Nat) (arms : List Arm) :
    chosen holds index arms = pick holds index ((guarded arms).map Prod.snd) (fallback arms) := by
  induction arms generalizing index with
  | nil => rfl
  | cons first rest ih =>
    match first with
    | .comment _ => exact ih index
    | .arm none _ => rfl
    | .arm (some _) body =>
      rw [chosen, ih (index + 1)]
      rfl

end Arm

namespace Compile

open Build
open Target (Choice Clause Code Stmt bodyLines chain clauses runs)

variable {setting : Setting}

/-! ### Branches with what is emitted for them -/

structure Branch where
  condition : Expr
  nodes : List Node
  test : Code
  body : List Stmt

namespace Branch

def source (b : Branch) : Expr × List Node := (b.condition, b.nodes)

def emitted (b : Branch) : Code × List Stmt := (b.test, b.body)

end Branch

/-- Branches and what is left are compiled one after another. -/
inductive Lowers (setting : Setting) :
    State → List Branch → Option (List Node × List Stmt) → State → Prop where
  | nothing (s : State) : Lowers setting s [] none s
  | last {s s' : State} {nodes : List Node} {stmts : List Stmt}
      (hbody : body setting false nodes s = (.ok stmts, s')) :
      Lowers setting s [] (some (nodes, stmts)) s'
  | branch {s first second s' : State} {b : Branch} {branches : List Branch}
      {last : Option (List Node × List Stmt)}
      (htest : expr setting b.condition s = (.ok b.test, first))
      (hbody : body setting false b.nodes first = (.ok b.body, second))
      (hrest : Lowers setting second branches last s') : Lowers setting s (b :: branches) last s'

/-- The given branches, and what is left, are compiled to the given code. -/
def Lowered (setting : Setting) (s : State) (guarded : List (Expr × List Node))
    (fallback : Option (List Node)) (emitted : List (Code × List Stmt))
    (otherwise : Option (List Stmt)) (s' : State) : Prop :=
  ∃ branches last, Lowers setting s branches last s' ∧
    branches.map Branch.source = guarded ∧ last.map Prod.fst = fallback ∧
    branches.map Branch.emitted = emitted ∧ last.map Prod.snd = otherwise

theorem Lowered.branch (htest : expr setting condition s = (.ok test, first))
    (hbody : body setting false nodes first = (.ok stmts, second))
    (h : Lowered setting second guarded fallback emitted otherwise s') :
    Lowered setting s ((condition, nodes) :: guarded) fallback ((test, stmts) :: emitted) otherwise
      s' := by
  obtain ⟨branches, last, hlowers, rfl, rfl, rfl, rfl⟩ := h
  exact ⟨⟨condition, nodes, test, stmts⟩ :: branches, last, .branch htest hbody hlowers, rfl, rfl,
    rfl, rfl⟩

theorem Lowered.nil_iff (h : Lowered setting s guarded fallback emitted otherwise s') :
    emitted = [] ↔ guarded = [] := by
  obtain ⟨branches, last, -, rfl, -, rfl, -⟩ := h
  rw [map_eq_nil_iff, map_eq_nil_iff]

theorem elseBranches_last (h : Node.Ends other) :
    elseBranches setting other = match other with
      | none => return ([], none)
      | some nodes => do return ([], some (← body setting false nodes)) := by
  match other, h with
  | none, _ => rfl
  | some [], _ => rfl
  | some (n :: _ :: _), _ => cases n <;> rfl
  | some [nested], h =>
    cases nested with
    | ifElse => exact absurd rfl (h _ _ _)
    | _ => rfl

theorem lowered_last (h : Node.Ends other)
    (heq : elseBranches setting other s = (.ok (emitted, otherwise), s')) :
    Lowered setting s [] other emitted otherwise s' := by
  rw [elseBranches_last h] at heq
  cases other with
  | none =>
    cases heq
    exact ⟨[], none, .nothing s, rfl, rfl, rfl, rfl⟩
  | some nodes =>
    obtain ⟨stmts, _, hbody, hrest⟩ := bind_ok heq
    cases hrest
    exact ⟨[], some (nodes, stmts), .last hbody, rfl, rfl, rfl, rfl⟩

theorem lowered_elseBranches (h : tree.isBranching)
    (heq : elseBranches setting (some [tree]) s = (.ok (emitted, otherwise), s')) :
    Lowered setting s tree.guarded tree.fallback emitted otherwise s' := by
  induction tree using Node.guarded.induct generalizing s emitted with
  | case1 condition thenBody nested ih =>
    obtain ⟨test, first, htest, heq⟩ := bind_ok heq
    obtain ⟨stmts, second, hbody, heq⟩ := bind_ok heq
    obtain ⟨⟨others, _⟩, _, hrest, heq⟩ := bind_ok heq
    cases heq
    cases hnested : nested.isBranching with
    | true =>
      rw [Node.fallback_nested condition thenBody hnested]
      exact (ih hnested hrest).branch htest hbody
    | false =>
      have hends := Node.ends_of_not_branching hnested
      obtain ⟨hguarded, hfallback, -⟩ := hends.tree condition thenBody
      rw [hguarded, hfallback]
      exact (lowered_last hends hrest).branch htest hbody
  | case2 condition thenBody other hother =>
    obtain ⟨test, first, htest, heq⟩ := bind_ok heq
    obtain ⟨stmts, second, hbody, heq⟩ := bind_ok heq
    obtain ⟨⟨others, _⟩, _, hrest, heq⟩ := bind_ok heq
    cases heq
    have hends : Node.Ends other := fun _ _ _ => hother _
    obtain ⟨hguarded, hfallback, -⟩ := hends.tree condition thenBody
    rw [hguarded, hfallback]
    exact (lowered_last hends hrest).branch htest hbody
  | case3 tree _ hother =>
    cases tree with
    | ifElse => exact absurd rfl (hother _ _ _)
    | _ => exact absurd h Bool.false_ne_true

theorem node_ifElse (condition : Expr) (thenBody : List Node) (elseBody : Option (List Node)) :
    node setting (.ifElse condition thenBody elseBody) = (do
      let (branches, otherwise) ←
        elseBranches setting (some [.ifElse condition thenBody elseBody])
      return [.ifChain branches otherwise]) := by
  simp only [node, elseBranches, bind_assoc, pure_bind]

theorem body_singleton {inner : Node}
    (h : collecting (node setting inner) s = (.ok (hoisted, stmts), s')) :
    body setting false [inner] s = (.ok (hoisted ++ stmts), s') := by
  by_cases hline : inner = .newline
  · subst hline
    cases h
    rfl
  · rw [body_cons hline, bind_of_ok h]
    change (Except.ok (hoisted ++ stmts ++ []), s') = _
    rw [append_nil]

theorem lowered_choices (heq : choices setting arms s = (.ok (emitted, otherwise), s')) :
    Lowered setting s (Arm.guarded arms) (Arm.fallback arms) (emitted.filterMap Choice.case?)
      otherwise s' ∧ emitted.filterMap Choice.note? = Arm.notes arms := by
  induction arms generalizing s emitted with
  | nil =>
    cases heq
    exact ⟨⟨[], none, .nothing _, rfl, rfl, rfl, rfl⟩, rfl⟩
  | cons first rest ih =>
    match first with
    | .comment text =>
      obtain ⟨⟨others, _⟩, _, hrest, heq⟩ := bind_ok heq
      cases heq
      obtain ⟨hlowered, hnotes⟩ := ih hrest
      exact ⟨hlowered, congrArg (("#" ++ text) :: ·) hnotes⟩
    | .arm none inner =>
      obtain ⟨⟨hoisted, stmts⟩, _, hinner, heq⟩ := bind_ok heq
      cases heq
      exact ⟨⟨[], some ([inner], _), .last (body_singleton hinner), rfl, rfl, rfl, rfl⟩, rfl⟩
    | .arm (some value) inner =>
      obtain ⟨test, _, htest, heq⟩ := bind_ok heq
      obtain ⟨⟨hoisted, stmts⟩, _, hinner, heq⟩ := bind_ok heq
      obtain ⟨⟨others, _⟩, _, hrest, heq⟩ := bind_ok heq
      cases heq
      obtain ⟨hlowered, hnotes⟩ := ih hrest
      exact ⟨hlowered.branch htest (body_singleton hinner), hnotes⟩

/-! ### Chains that keep the choice -/

/-- The lines are a chain with one clause for each branch, in order, and one for what is left. For
all outcomes of the conditions, it runs what is emitted for the branch that is chosen. -/
def KeepsChoice (setting : Setting) (s : State) (guarded : List (Expr × List Node))
    (fallback : Option (List Node)) (chosen : (Nat → Bool) → Option (List Node))
    (testText : Code → String) (lines : List String) (s' : State) : Prop :=
  ∃ branches last, Lowers setting s branches last s' ∧
    branches.map Branch.source = guarded ∧ last.map Prod.fst = fallback ∧
    clauses lines = chain "if" (branches.map fun b => (testText b.test, bodyLines b.body))
      (last.map fun rest => bodyLines rest.2) ∧
    ∀ holds,
      let picked := pick holds 0 (branches.map fun b => (b.nodes, b.body)) last
      chosen holds = picked.map Prod.fst ∧
        runs holds 0 false (clauses lines) = (picked.map fun branch => bodyLines branch.2).toList

theorem Lowered.keepsChoice (h : Lowered setting s guarded fallback emitted otherwise s')
    (hchosen : ∀ holds, chosen holds = pick holds 0 (guarded.map Prod.snd) fallback)
    (hguarded : guarded ≠ [])
    (hlines : clauses lines = chain "if" (emitted.map fun b => (testText b.1, bodyLines b.2))
      (otherwise.map bodyLines)) :
    KeepsChoice setting s guarded fallback chosen testText lines s' := by
  obtain ⟨branches, last, hlowers, rfl, rfl, rfl, rfl⟩ := h
  rw [map_map, Option.map_map] at hlines
  refine ⟨branches, last, hlowers, rfl, rfl, hlines, fun holds => ⟨?_, ?_⟩⟩
  · rw [hchosen, ← Target.pick_map, map_map, map_map]
    rfl
  · have htests : branches.map (fun b => (testText b.test, bodyLines b.body)) ≠ [] := by
      simpa using hguarded
    rw [hlines]
    refine (Target.runs_chain 0 htests _ false).trans (congrArg Option.toList ?_)
    rw [← Target.pick_map, map_map, map_map]
    rfl

section

variable {s s' : State} {stmts : List Stmt}

/-- The chain of a branching ends with what is left exactly if something is. -/
theorem ifElse_keepsChoice
    (h : node setting (.ifElse condition thenBody elseBody) s = (.ok stmts, s')) :
    let tree := Node.ifElse condition thenBody elseBody
    ∃ stmt, stmts = [stmt] ∧
      KeepsChoice setting s tree.guarded tree.fallback (fun holds => tree.chosen holds 0)
        Code.toText stmt.lines s' ∧
      ("else:" ∈ (clauses stmt.lines).map Clause.header ↔ tree.fallback.isSome) := by
  intro tree
  rw [node_ifElse] at h
  obtain ⟨⟨branches, otherwise⟩, _, hbranches, h⟩ := bind_ok h
  cases h
  have hlowered : Lowered setting s tree.guarded tree.fallback branches otherwise s' :=
    lowered_elseBranches rfl hbranches
  have hlines : clauses (Stmt.ifChain branches otherwise).lines =
      chain "if" (branches.map fun b => (b.1.toText, bodyLines b.2)) (otherwise.map bodyLines) :=
    Target.clauses_branchLines (.inl rfl) branches otherwise
  have hkeeps : KeepsChoice setting s tree.guarded tree.fallback (fun holds => tree.chosen holds 0)
      Code.toText (Stmt.ifChain branches otherwise).lines s' :=
    hlowered.keepsChoice (fun holds => Node.chosen_eq_pick holds 0 rfl)
      (Node.guarded_ne_nil condition thenBody elseBody) hlines
  refine ⟨_, rfl, hkeeps, ?_⟩
  obtain ⟨-, last, -, -, hfallback, -, hlast⟩ := hlowered
  rw [hlines, Target.closes_mem_chain "if" (.inl rfl), ← hfallback, ← hlast]
  simp

/-- The subject of a selection is evaluated once, ahead of the chain. Without values to compare it
with there is no chain but only what is left. -/
theorem select_keepsChoice (h : node setting (.select subject arms) s = (.ok stmts, s')) :
    ∃ stmt temp value first second tail, stmts = [stmt] ∧
      fresh .subject s = (.ok temp, first) ∧ expr setting subject first = (.ok value, second) ∧
      stmt.lines = (temp.toText ++ " = " ++ value.toText) :: tail ∧
      (Arm.guarded arms ≠ [] →
        KeepsChoice setting second (Arm.guarded arms) (Arm.fallback arms)
          (fun holds => Arm.chosen holds 0 arms)
          (fun test => temp.toText ++ " == " ++ test.toText) tail s') ∧
      (Arm.guarded arms = [] →
        ∃ last, Lowers setting second [] last s' ∧
          (∀ holds, Arm.chosen holds 0 arms = last.map Prod.fst) ∧
          tail = Arm.notes arms ++ (last.map fun rest => Stmt.listLines rest.2).getD []) := by
  obtain ⟨temp, first, htemp, h⟩ := bind_ok h
  obtain ⟨value, second, hvalue, h⟩ := bind_ok h
  obtain ⟨⟨emitted, otherwise⟩, _, hchoices, h⟩ := bind_ok h
  cases h
  obtain ⟨hlowered, hnotes⟩ := lowered_choices hchoices
  refine ⟨_, temp, value, first, second, _, rfl, htemp, hvalue, rfl, fun hguarded => ?_,
    fun hguarded => ?_⟩
  · have hcases : emitted.filterMap Choice.case? ≠ [] :=
      fun hnil => hguarded (hlowered.nil_iff.mp hnil)
    refine hlowered.keepsChoice (fun holds => Arm.chosen_eq_pick holds 0 arms) hguarded ?_
    rw [if_pos (Target.any_isCase_iff.mpr hcases)]
    exact Target.clauses_choiceLines (.inl rfl) (hnotes ▸ Arm.isNote_of_mem_notes) otherwise
  · have hcases : emitted.filterMap Choice.case? = [] := hlowered.nil_iff.mpr hguarded
    have hany : ¬emitted.any Choice.isCase := fun hany => Target.any_isCase_iff.mp hany hcases
    obtain ⟨branches, last, hlowers, hsource, hfallback, -, rfl⟩ := hlowered
    obtain rfl := map_eq_nil_iff.mp (hsource.trans hguarded)
    refine ⟨last, hlowers, fun holds => ?_, ?_⟩
    · rw [Arm.chosen_eq_pick, hguarded, hfallback]
      rfl
    · rw [if_neg hany, Target.choiceLines_notes "if" hcases, hnotes]
      cases last <;> rfl

end

/-- Branchings and selections run what the source chooses, whatever their conditions come out as. -/
theorem branches_kept (setting : Setting) (s s' : State) (stmts : List Stmt) :
    (∀ condition thenBody elseBody,
      node setting (.ifElse condition thenBody elseBody) s = (.ok stmts, s') →
      let tree := Node.ifElse condition thenBody elseBody
      ∃ stmt, stmts = [stmt] ∧
        KeepsChoice setting s tree.guarded tree.fallback (fun holds => tree.chosen holds 0)
          Code.toText stmt.lines s' ∧
        ("else:" ∈ (clauses stmt.lines).map Clause.header ↔ tree.fallback.isSome) ∧
        Node.Ends tree.fallback) ∧
    ∀ subject arms, node setting (.select subject arms) s = (.ok stmts, s') →
      ∃ stmt temp value first second tail, stmts = [stmt] ∧
        fresh .subject s = (.ok temp, first) ∧ expr setting subject first = (.ok value, second) ∧
        stmt.lines = (temp.toText ++ " = " ++ value.toText) :: tail ∧
        (Arm.guarded arms ≠ [] →
          KeepsChoice setting second (Arm.guarded arms) (Arm.fallback arms)
            (fun holds => Arm.chosen holds 0 arms)
            (fun test => temp.toText ++ " == " ++ test.toText) tail s') ∧
        (Arm.guarded arms = [] →
          ∃ last, Lowers setting second [] last s' ∧
            (∀ holds, Arm.chosen holds 0 arms = last.map Prod.fst) ∧
            tail = Arm.notes arms ++ (last.map fun rest => Stmt.listLines rest.2).getD []) := by
  refine ⟨fun condition thenBody elseBody h => ?_, fun subject arms h => select_keepsChoice h⟩
  obtain ⟨stmt, hstmt, hkeeps, helse⟩ := ifElse_keepsChoice h
  exact ⟨stmt, hstmt, hkeeps, helse, Node.ends_fallback _⟩

/-- A branching that is all that is left continues the chain, and one behind a line end does not.
A selection has no test for the arm that takes what is left. -/
theorem branches_kept_nested :
    ∃ setting elseBody arms stmt selection tail s' s'' second,
      setting = Setting.mk .script (.ofProgram ⟨[]⟩) ∧
      elseBody = some [Node.ifElse (.name "b") [] (some [.newline, .ifElse (.name "c") [] none])] ∧
      arms = [Arm.comment "z", .arm (some (.number "1")) (.ret none), .arm none (.goto "f" [])] ∧
      node setting (.ifElse (.name "a") [.expr (.name "x")] elseBody) {} = (.ok [stmt], s') ∧
      stmt.lines = ["if a:", "    x", "elif b:", "    pass", "else:", "    if c:", "        pass"] ∧
      KeepsChoice setting {} (Node.ifElse (.name "a") [.expr (.name "x")] elseBody).guarded
        (Node.ifElse (.name "a") [.expr (.name "x")] elseBody).fallback
        (fun holds => Node.chosen holds 0 (.ifElse (.name "a") [.expr (.name "x")] elseBody))
        Code.toText stmt.lines s' ∧
      node setting (.select (.name "y") arms) {} = (.ok [selection], s'') ∧
      selection.lines = "_match_1 = y" :: tail ∧
      tail = ["#z", "if _match_1 == 1:", "    pass", "else:", "    f()"] ∧
      KeepsChoice setting second (Arm.guarded arms) (Arm.fallback arms)
        (fun holds => Arm.chosen holds 0 arms) (fun test => "_match_1 == " ++ test.toText) tail
        s'' := by
  obtain ⟨setting, hsetting⟩ : ∃ setting, setting = Setting.mk .script (.ofProgram ⟨[]⟩) := ⟨_, rfl⟩
  obtain ⟨elseBody, helse⟩ : ∃ elseBody, elseBody =
      some [Node.ifElse (.name "b") [] (some [.newline, .ifElse (.name "c") [] none])] := ⟨_, rfl⟩
  obtain ⟨arms, harms⟩ : ∃ arms, arms =
      [Arm.comment "z", .arm (some (.number "1")) (.ret none), .arm none (.goto "f" [])] := ⟨_, rfl⟩
  obtain ⟨stmt, s', hnode, hlines⟩ : ∃ stmt s',
      node setting (.ifElse (.name "a") [.expr (.name "x")] elseBody) {} = (.ok [stmt], s') ∧
      stmt.lines =
        ["if a:", "    x", "elif b:", "    pass", "else:", "    if c:", "        pass"] := by
    subst hsetting helse
    exact ⟨_, _, rfl, by decide +kernel⟩
  obtain ⟨selection, s'', hselect, hlines'⟩ : ∃ selection s'',
      node setting (.select (.name "y") arms) {} = (.ok [selection], s'') ∧
      selection.lines =
        ["_match_1 = y", "#z", "if _match_1 == 1:", "    pass", "else:", "    f()"] := by
    subst hsetting harms
    exact ⟨_, _, rfl, by decide +kernel⟩
  obtain ⟨_, hstmt, hkeeps, -, -⟩ := (branches_kept _ _ _ _).1 _ _ _ hnode
  obtain rfl := singleton_inj.mp hstmt
  obtain ⟨_, temp, value, _, second, tail, hstmt, htemp, -, hfirst, hchain, -⟩ :=
    (branches_kept _ _ _ _).2 _ _ hselect
  obtain rfl := singleton_inj.mp hstmt
  have htail := (List.cons.inj (hfirst.symm.trans hlines')).2
  cases htemp
  refine ⟨setting, elseBody, arms, stmt, selection, tail, s', s'', second, hsetting, helse, harms,
    hnode, hlines, hkeeps, hselect, htail ▸ hlines', htail, ?_⟩
  exact hchain (by subst harms; simp [Arm.guarded])

end Compile
end AgentLang
