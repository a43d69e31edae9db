import AgentLang.Proofs.Compile.Asks
import AgentLang.Proofs.Compile.Becomes
import AgentLang.Proofs.Compile.Record

/-!
# Runs of compilation

Whatever compilation ends with, its nodes become it. What a run changes is told by the result: the
functions that wait ahead of the current statement, the numbers that are given out and the built-ins
that come into use.
-/

namespace AgentLang.Compile

open List
open Target (Builtin Choice Code Link PromptFunction Section Stmt Temp)

namespace State

/-- Nothing waits, is numbered or is used that was not before. -/
structure Still (s s' : State) : Prop where
  hoisted : s'.context.hoisted = s.context.hoisted
  counter : s'.context.counter = s.context.counter
  used : s'.used = s.used

instance : Std.Refl Still where
  refl _ := ⟨rfl, rfl, rfl⟩

instance : IsTrans State Still where
  trans _ _ _ h h' :=
    ⟨h'.hoisted.trans h.hoisted, h'.counter.trans h.counter, h'.used.trans h.used⟩

theorem SameButHints.still {s s' : State} (h : SameButHints s s') : s.Still s' :=
  ⟨congrArg Context.hoisted h.1, congrArg Context.counter h.1, h.2⟩

/-- Between the states functions are put ahead of the current statement and numbers are given out in
the given way, and the built-ins that are called come into use. -/
def Leads (setting : Setting) (called : List Called) (P : Nat → List PromptFunction → Nat → Prop)
    (s s' : State) : Prop :=
  ∃ functions, P s.context.counter functions s'.context.counter ∧
    Adds functions s.context.hoisted s'.context.hoisted ∧
    ∀ builtin, builtin ∈ s'.used ↔
      builtin ∈ s.used ∨ builtin ∈ called.filterMap setting.builtin?

namespace Leads

variable {setting : Setting} {called later : List Called}
  {P Q R : Nat → List PromptFunction → Nat → Prop} {s m s' : State}

theorem mono (h : Leads setting called P s s') (hPQ : ∀ n functions n', P n functions n' →
    Q n functions n') : Leads setting called Q s s' := by
  obtain ⟨functions, hP, hadds, hused⟩ := h
  exact ⟨functions, hPQ _ _ _ hP, hadds, hused⟩

theorem append (h : Leads setting called P s m) (h' : Leads setting later R m s')
    (hQ : ∀ n functions k others n',
      P n functions k → R k others n' → Q n (functions ++ others) n') :
    Leads setting (called ++ later) Q s s' := by
  obtain ⟨functions, hP, hadds, hused⟩ := h
  obtain ⟨others, hR, hadds', hused'⟩ := h'
  refine ⟨functions ++ others, hQ _ _ _ _ _ hP hR, hadds.append hadds', fun builtin => ?_⟩
  rw [hused' builtin, hused builtin, filterMap_append, mem_append, or_assoc]

theorem behind (hstill : s.Still m) (h : Leads setting called P m s') :
    Leads setting called P s s' := by
  obtain ⟨functions, hP, hadds, hused⟩ := h
  rw [hstill.counter] at hP
  rw [hstill.hoisted] at hadds
  rw [hstill.used] at hused
  exact ⟨functions, hP, hadds, hused⟩

theorem ahead (h : Leads setting called P s m) (hstill : m.Still s') :
    Leads setting called P s s' := by
  obtain ⟨functions, hP, hadds, hused⟩ := h
  rw [← hstill.counter] at hP
  rw [← hstill.hoisted] at hadds
  rw [← hstill.used] at hused
  exact ⟨functions, hP, hadds, hused⟩

end Leads
end State

namespace Build

open State (Still)

variable {α β γ : Type} {setting : Setting} {called later : List Called} {step : Build α}
  {other : Build β} {next : α → Build β} {P Q : α → Nat → List PromptFunction → Nat → Prop}
  {R : β → Nat → List PromptFunction → Nat → Prop}

/-- Wherever the step ends, it leads there in the way that is given for its result. -/
def Leads (setting : Setting) (step : Build α) (called : List Called)
    (P : α → Nat → List PromptFunction → Nat → Prop) : Prop :=
  ∀ s a s', step s = (.ok a, s') → State.Leads setting called (P a) s s'

namespace Leads

theorem mono (h : Leads setting step called P)
    (hPQ : ∀ a n functions n', P a n functions n' → Q a n functions n') :
    Leads setting step called Q :=
  fun s a s' heq => (h s a s' heq).mono (hPQ a)

theorem bind (h : Leads setting step called P)
    (hnext : ∀ a, Leads setting (next a) later fun b k others n' =>
      ∀ n functions, P a n functions k → R b n (functions ++ others) n') :
    Leads setting (step >>= next) (called ++ later) R := by
  intro s b s' heq
  obtain ⟨a, m, hstep, hrest⟩ := bind_ok heq
  exact (h s a m hstep).append (hnext a m b s' hrest) fun n functions _ _ _ hP hR =>
    hR n functions hP

theorem then_still (h : Leads setting step called P) (hnext : ∀ a, Moves Still (next a))
    (hR : ∀ a s b s', next a s = (.ok b, s') → ∀ n functions n', P a n functions n' →
      R b n functions n') : Leads setting (step >>= next) called R := by
  intro s b s' heq
  obtain ⟨a, m, hstep, hrest⟩ := bind_ok heq
  exact ((h s a m hstep).mono (hR a m b s' hrest)).ahead ((hnext a).of_eq hrest)

theorem ends (h : Leads setting step called P) (hnext : ∀ a, ∃ b, next a = pure b ∧
    ∀ n functions n', P a n functions n' → R b n functions n') :
    Leads setting (step >>= next) called R := by
  intro s b s' heq
  obtain ⟨a, m, hstep, hrest⟩ := bind_ok heq
  obtain ⟨_, hpure, hR⟩ := hnext a
  rw [hpure] at hrest
  cases hrest
  exact (h s a _ hstep).mono hR

/-- A step whose result is only passed on. -/
theorem done {f : α → β} (h : Leads setting step called P)
    (hR : ∀ a n functions n', P a n functions n' → R (f a) n functions n') :
    Leads setting (step >>= fun a => pure (f a)) called R :=
  h.ends fun a => ⟨_, rfl, hR a⟩

/-- Two steps whose results are passed on together. -/
theorem pair {f : α → β → γ} {S : γ → Nat → List PromptFunction → Nat → Prop}
    (h : Leads setting step called P) (hother : Leads setting other later R)
    (hS : ∀ a b n functions k others n', P a n functions k → R b k others n' →
      S (f a b) n (functions ++ others) n') :
    Leads setting (step >>= fun a => other >>= fun b => pure (f a b)) (called ++ later) S :=
  h.bind fun a => hother.done fun b k others n' hR n functions hP =>
    hS a b n functions k others n' hP hR

/-- Nothing waits behind the step. -/
theorem within {P : α → Nat → Nat → Prop} {f : α → β}
    (h : Leads setting step called fun a n functions n' => functions = [] ∧ P a n n')
    (hR : ∀ a n n', P a n n' → R (f a) n [] n') :
    Leads setting (step >>= fun a => pure (f a)) called R := by
  refine h.done ?_
  rintro a n _ n' ⟨rfl, ha⟩
  exact hR a n n' ha

theorem perm (h : Leads setting step called P) (hperm : later.Perm called) :
    Leads setting step later P := by
  intro s a s' heq
  obtain ⟨functions, hP, hadds, hused⟩ := h s a s' heq
  refine ⟨functions, hP, hadds, fun builtin => ?_⟩
  rw [hused builtin, (hperm.filterMap _).mem_iff]

theorem expecting (type : Option Ty) (h : Leads setting step called P) :
    Leads setting (expecting type step) called P := by
  intro s a s' heq
  obtain ⟨after, hrun, rfl⟩ := between_ok heq
  have hinner := h _ a after hrun
  exact hinner

theorem inScope (scope : Scope) (returns : Option Ty) (h : Leads setting step called P) :
    Leads setting (inScope scope returns step) called P := by
  intro s a s' heq
  obtain ⟨after, hrun, rfl⟩ := between_ok heq
  have hinner := h _ a after hrun
  exact hinner

theorem inDefinition (scope : Scope) (returns : Option Ty) (h : Leads setting step called P) :
    Leads setting (inDefinition scope returns step) called P := by
  refine inScope scope returns fun s a s' heq => ?_
  obtain ⟨after, hrun, rfl⟩ := between_ok heq
  have hinner := h _ a after hrun
  exact hinner

theorem collecting (h : Leads setting step called P) :
    Leads setting (collecting step) called fun result n waiting n' => waiting = [] ∧
      ∃ functions : List PromptFunction, result.1 = functions.map .prompt ∧
        P result.2 n functions n' := by
  rintro s ⟨hoisted, a⟩ s' heq
  obtain ⟨after, hrun, hafter⟩ := collecting_ok heq
  obtain ⟨functions, hP, hadds, hused⟩ := h _ a after hrun
  have hframes := hadds.eq_of_opened
  rcases hafter with ⟨hopened, hs'⟩ | ⟨hclosed, -, -⟩
  · rw [hopened] at hframes
    obtain ⟨rfl, hrest⟩ := List.cons.inj hframes
    refine ⟨[], ⟨rfl, functions, rfl, ?_⟩, ?_, ?_⟩
    · rw [hs']
      exact hP
    · rw [hrest]
      exact .refl _
    · rw [hs']
      exact hused
  · rw [hclosed] at hframes
    exact nomatch hframes

end Leads

theorem leads_pure (h : ∀ n, P a n [] n) : Leads setting (pure a) [] P := by
  rintro s _ _ ⟨⟩
  exact ⟨[], h _, .refl _, by simp⟩

theorem leads_after (h : Moves Still step)
    (hnext : ∀ s a s', step s = (.ok a, s') → Leads setting (next a) called R) :
    Leads setting (step >>= next) called R := by
  intro s b s' heq
  obtain ⟨a, m, hstep, hrest⟩ := bind_ok heq
  exact .behind (h.of_eq hstep) (hnext s a m hstep m b s' hrest)

theorem leads_nextIndex {next : Nat → Build β}
    (hnext : ∀ n, Leads setting (next (n + 1)) called fun b k functions n' =>
      k = n + 1 → R b n functions n') : Leads setting (nextIndex >>= next) called R := by
  intro s b s' heq
  obtain ⟨_, _, hindex, hrest⟩ := bind_ok heq
  cases hindex
  obtain ⟨functions, hR, hadds, hused⟩ := hnext _ _ b s' hrest
  exact ⟨functions, hR rfl, hadds, hused⟩

theorem leads_fresh {purpose : Target.Purpose} {next : Temp → Build β}
    (hnext : ∀ n, Leads setting (next ⟨purpose, n + 1⟩) called fun b k functions n' =>
      k = n + 1 → R b n functions n') : Leads setting (fresh purpose >>= next) called R := by
  unfold fresh
  rw [bind_assoc]
  exact leads_nextIndex hnext

theorem still_takeTools : Moves Still takeTools := fun _ => ⟨rfl, rfl, rfl⟩

theorem leads_hoist (f : PromptFunction) : Leads setting (hoist [.prompt f]) []
    fun _ n functions n' => functions = [f] ∧ n' = n := by
  intro s _ s' heq
  obtain ⟨waiting, rest, hframes, rfl⟩ := hoist_ok heq
  refine ⟨[f], ⟨rfl, rfl⟩, ?_, fun _ => by simp⟩
  rw [hframes]
  exact .opened [f] waiting rest

theorem useBuiltin_ok (h : useBuiltin builtin s = (.ok u, s')) :
    (s'.context.hoisted = s.context.hoisted ∧ s'.context.counter = s.context.counter) ∧
      ∀ other, other ∈ s'.used ↔ other ∈ s.used ∨ other = builtin := by
  have hs' : s' = if builtin ∈ s.used then s else { s with used := s.used ++ [builtin] } :=
    (congrArg Prod.snd h).symm
  by_cases hused : builtin ∈ s.used
  · rw [if_pos hused] at hs'
    subst hs'
    refine ⟨⟨rfl, rfl⟩, fun other => ⟨.inl, ?_⟩⟩
    rintro (hother | rfl)
    · exact hother
    · exact hused
  · rw [if_neg hused] at hs'
    subst hs'
    exact ⟨⟨rfl, rfl⟩, fun other => by simp⟩

end Build

open Build
open State (Still)

variable {setting : Setting}

/-- A call is routed as its name asks for, and the built-in that it needs comes into use. -/
theorem callCode_leads (name : String) (codes : List Code) :
    Leads setting (callCode setting name codes) [.function name] fun code n functions n' =>
      code = setting.routed name codes ∧ functions = [] ∧ n' = n := by
  intro s code s' h
  unfold callCode at h
  by_cases hinvoked : isInvoked setting name
  · rw [if_pos hinvoked] at h
    cases h
    refine ⟨[], ⟨?_, rfl, rfl⟩, .refl _, ?_⟩
    · rw [Setting.routed, if_pos hinvoked]
    · simp [Setting.builtin?, hinvoked]
  · rw [if_neg hinvoked] at h
    obtain ⟨target, m, htarget, h⟩ := bind_ok h
    cases h
    unfold resolveFunction at htarget
    by_cases hdeclared : name ∈ setting.declared.functions ∨ name ∈ setting.declared.nodes
    · have hdeclares : setting.declares name := by simpa [Setting.declares] using hdeclared
      rw [if_pos hdeclared] at htarget
      cases htarget
      refine ⟨[], ⟨?_, rfl, rfl⟩, .refl _, ?_⟩
      · rw [Setting.routed, if_neg hinvoked, Setting.resolved, if_pos hdeclares]
      · simp [Setting.builtin?, hdeclares]
    · have hdeclares : ¬setting.declares name := by simpa [Setting.declares] using hdeclared
      rw [if_neg hdeclared] at htarget
      cases hname : Builtin.ofName? name with
      | none =>
        rw [hname] at htarget
        cases htarget
        refine ⟨[], ⟨?_, rfl, rfl⟩, .refl _, ?_⟩
        · simp [Setting.routed, hinvoked, Setting.resolved, hdeclares, Builtin.resolve, hname]
        · simp [Setting.builtin?, hname]
      | some found =>
        rw [hname] at htarget
        obtain ⟨_, after, huse, htarget⟩ := bind_ok htarget
        cases htarget
        obtain ⟨hstill, hused⟩ := useBuiltin_ok huse
        refine ⟨[], ⟨?_, rfl, hstill.2⟩, ?_, fun builtin => ?_⟩
        · simp [Setting.routed, hinvoked, Setting.resolved, hdeclares, Builtin.resolve, hname]
        · rw [hstill.1]
          exact .refl _
        · have hbuiltin : setting.builtin? (.function name) = some found := by
            simp [Setting.builtin?, hinvoked, hdeclares, hname]
          rw [hused, filterMap_cons_some hbuiltin, filterMap_nil, List.mem_singleton]

theorem moves_still {step : Build α} (h : Moves State.SameButHints step) : Moves Still step :=
  h.mono State.SameButHints.still

mutual

theorem expr_leads (e : Expr) : Leads setting (expr setting e) e.called
    fun code n functions n' => ExprBecomes setting n e functions code n' := by
  cases e with
  | number digits => exact leads_pure fun _ => .number digits
  | string segments => exact leads_pure fun _ => .string segments
  | multiline segments => exact leads_pure fun _ => .multiline segments
  | boolean value => exact leads_pure fun _ => .boolean value
  | name ident => exact leads_pure fun _ => .name ident
  | prompt segments config =>
    refine leads_nextIndex fun n => leads_after moves_responseSchema fun _ schema _ _ => ?_
    rw [← append_nil (Expr.called _)]
    refine (configEntries_leads config).bind fun entries =>
      leads_after still_takeTools fun _ tools _ _ => (leads_hoist _).done ?_
    rintro _ k _ _ ⟨rfl, rfl⟩ _ functions hbecomes rfl
    exact .prompt segments schema tools hbecomes
  | access base chain =>
    exact (expr_leads base).pair (links_leads chain) fun _ _ _ _ _ _ _ => .access
  | array items => exact (exprs_leads items).done fun _ _ _ _ => .array
  | object entries => exact (exprEntries_leads entries).done fun _ _ _ _ => .object
  | call function arguments =>
    refine (exprs_leads arguments).bind fun codes => (callCode_leads function codes).mono ?_
    rintro _ k _ _ ⟨rfl, rfl, rfl⟩ n functions hbecomes
    rw [append_nil]
    exact .call function hbecomes
  | binary op left right =>
    exact (expr_leads left).pair (expr_leads right) fun _ _ _ _ _ _ _ => .binary op
termination_by structural e

theorem exprs_leads (es : List Expr) : Leads setting (exprs setting es) (Expr.listCalled es)
    fun codes n functions n' => ExprsBecome setting n es functions codes n' := by
  cases es with
  | nil => exact leads_pure fun _ => .nil
  | cons first rest =>
    exact (expr_leads first).pair (exprs_leads rest) fun _ _ _ _ _ _ _ => .cons
termination_by structural es

theorem exprEntries_leads (entries : List (String × Expr)) :
    Leads setting (exprEntries setting entries) (Expr.entriesCalled entries)
      fun codes n functions n' => EntriesBecome setting n entries functions codes n' := by
  cases entries with
  | nil => exact leads_pure fun _ => .nil
  | cons first rest =>
    obtain ⟨key, value⟩ := first
    exact (expr_leads value).pair (exprEntries_leads rest) fun _ _ _ _ _ _ _ => .cons key
termination_by structural entries

theorem configEntries_leads (config : Option (List (String × Expr))) :
    Leads setting (configEntries setting config) (Expr.configCalled config)
      fun codes n functions n' => ConfigBecomes setting n config functions codes n' := by
  cases config with
  | none => exact leads_pure fun _ => .none
  | some entries => exact (exprEntries_leads entries).done fun _ _ _ _ => .some
termination_by structural config

theorem links_leads (chain : List Step) : Leads setting (links setting chain)
    (Expr.chainCalled chain) fun codes n functions n' =>
      ChainBecomes setting n chain functions codes n' := by
  cases chain with
  | nil => exact leads_pure fun _ => .nil
  | cons link rest =>
    cases link with
    | property name => exact (links_leads rest).done fun _ _ _ _ => .property name
    | index value =>
      exact (expr_leads value).pair (links_leads rest) fun _ _ _ _ _ _ _ => .index
    | method name arguments =>
      exact (exprs_leads arguments).pair (links_leads rest) fun _ _ _ _ _ _ _ => .method name
termination_by structural chain

end

/-! ### Runs of nodes -/

theorem still_useTools (tools : List String) : Moves Still (useTools setting tools) := by
  refine moves_forM (fun tool => ?_) tools
  split
  · intro s
    change s.Still { s with
      context := if tool ∈ s.context.pendingTools then s.context else s.context.addTool tool }
    split <;> exact ⟨rfl, rfl, rfl⟩
  · exact moves_fail _

theorem leads_parameterCode {parameter : Parameter} {next : Code → Build β}
    (hnext : ∀ typeCode, Leads setting (next (.parameter parameter.name typeCode)) called R) :
    Leads setting (parameterCode parameter >>= next) called R := by
  refine leads_after (moves_parameterCode parameter) fun s code s' h => ?_
  obtain ⟨typeCode, _, -, h⟩ := bind_ok h
  cases h
  exact hnext typeCode

theorem parameterList_names {parameters : List Parameter} {shown : List (String × Option String)}
    {s s' : State} (h : parameterList parameters s = (.ok shown, s')) :
    shown.map Prod.fst = parameters.map Parameter.name := by
  unfold parameterList at h
  induction parameters generalizing shown s with
  | nil =>
    cases h
    rfl
  | cons parameter rest ih =>
    rw [mapM_cons] at h
    obtain ⟨first, _, hfirst, h⟩ := bind_ok h
    obtain ⟨others, _, hothers, h⟩ := bind_ok h
    cases h
    obtain ⟨typeCode, _, -, hfirst⟩ := bind_ok hfirst
    cases hfirst
    rw [map_cons, ih hothers, map_cons]

theorem returned_leads (value : Expr) : Leads setting (returned setting (some value)) value.called
    fun result n functions n' => ∃ code, result = some code ∧
      ExprBecomes setting n value functions code n' := by
  refine leads_after moves_get fun _ s _ _ => ?_
  rw [map_eq_pure_bind]
  exact ((expr_leads value).expecting _).done fun code _ _ _ hbecomes => ⟨code, rfl, hbecomes⟩

theorem leads_gotoStmt (target : String) (codes : List Code) :
    Leads setting (gotoStmt setting target codes) [.node target] fun stmt n functions n' =>
      (∃ s s', gotoStmt setting target codes s = (.ok stmt, s')) ∧ functions = [] ∧ n' = n := by
  intro s stmt s' hstmt
  have hstill : s.Still s' := (moves_gotoStmt target codes).of_eq hstmt
  refine ⟨[], ⟨⟨s, s', hstmt⟩, rfl, hstill.counter⟩, ?_, ?_⟩
  · rw [hstill.hoisted]
    exact .refl _
  · simp [hstill.used, Setting.builtin?]

theorem fails_node_assign {name : String} {hint : Option Ty} {value : Node}
    (h : isAssignable value = false) : Fails (node setting (.assign name hint value)) := by
  rw [node_assign h]
  exact .behind fun _ => .behind fun _ => .behind fun _ => fails_fail _

mutual

theorem node_leads (n : Node) : Leads setting (node setting n) n.called
    fun stmts k functions k' => NodeBecomes setting k n functions stmts k' := by
  cases n with
  | expr value =>
    rw [Node.called_leaf rfl]
    exact (expr_leads value).done fun _ _ _ _ => .expr
  | parameter parameter =>
    exact leads_parameterCode fun typeCode => leads_pure fun _ => .parameter parameter typeCode
  | function name parameters inner returns doc =>
    exact leads_after (moves_parameterList parameters) fun _ shown _ hshown =>
      leads_after (moves_typeCode? returns) fun _ result _ _ =>
      leads_after (moves_still (sameButHints_storeParameterHints parameters)) fun _ _ _ _ =>
      ((body_leads false inner).inDefinition _ _).within fun _ _ _ =>
      .function shown result (parameterList_names hshown)
  | graphNode name parameters inner returns visibility =>
    cases hbackend : setting.backend with
    | script =>
      simp only [node, hbackend]
      exact leads_after (moves_parameterList parameters) fun _ shown _ hshown =>
        leads_after (moves_typeCode? returns) fun _ result _ _ =>
        ((body_leads false inner).inDefinition _ _).within fun _ _ _ =>
        .plainNode shown result (parameterList_names hshown) hbackend
    | graph =>
      simp only [node, hbackend]
      exact leads_after (moves_still (sameButHints_storeParameterHints parameters)) fun _ _ _ _ =>
        ((body_leads false inner).inDefinition _ _).within fun _ _ _ => .graphNode hbackend
  | goto target arguments =>
    rw [Node.called_leaf rfl]
    refine (exprs_leads arguments).bind fun codes => (leads_gotoStmt target codes).done ?_
    rintro _ k _ _ ⟨⟨_, _, hstmt⟩, rfl, rfl⟩ n functions hbecomes
    rw [append_nil]
    exact .goto hbecomes hstmt
  | uses tools =>
    exact leads_after (still_useTools tools) fun _ _ _ _ => leads_pure fun _ => .uses tools
  | assign name hint value =>
    have hhint := moves_still (sameButHints_storeHint? name hint)
    cases value with
    | thread kind inner =>
      refine leads_fresh fun n => (body_leads false inner).within ?_
      rintro stmts _ n' hbody rfl
      exact .assignThread name hint kind hbody
    | timed inner prints =>
      refine leads_nextIndex fun n => (body_leads false inner).within ?_
      rintro stmts _ n' hbody rfl
      exact .assignTimed name hint prints hbody
    | expr value =>
      change Leads setting _ (Node.expr value).called _
      rw [Node.called_leaf rfl]
      refine leads_after hhint fun _ _ _ _ => leads_after (moves_hintOf name) fun _ type _ _ =>
        ((expr_leads value).expecting type).then_still
          (fun _ => (moves_allowedTypeCode hint).done) fun code s _ s' h => ?_
      obtain ⟨typeCode, _, -, h⟩ := bind_ok h
      cases h
      exact fun _ _ _ => .assign name hint typeCode
    | parameter parameter =>
      exact leads_after hhint fun _ _ _ _ => leads_parameterCode fun parameterType =>
        leads_after (moves_allowedTypeCode hint) fun _ typeCode _ _ => leads_pure fun _ =>
        .assignParameter name hint parameter typeCode parameterType
    | _ => exact fun s stmts s' h => absurd h (fails_node_assign rfl s stmts s')
  | ret value =>
    cases value with
    | none =>
      refine leads_after (moves_pure none) fun _ _ _ h => ?_
      cases h
      exact leads_after (moves_retStmt none) fun _ stmt _ hstmt => leads_pure fun _ =>
        .retNothing hstmt
    | some value =>
      rw [Node.called_leaf rfl]
      refine (returned_leads value).then_still (fun _ => (moves_retStmt _).done) ?_
      rintro _ s _ s' h n functions n' ⟨code, rfl, hbecomes⟩
      obtain ⟨stmt, _, hstmt, h⟩ := bind_ok h
      cases h
      exact .ret hbecomes hstmt
  | hint name type =>
    refine leads_after (moves_still (sameButHints_storeHint name type)) fun _ _ _ _ =>
      leads_after moves_annotationsAllowed fun _ allowed _ _ => ?_
    split
    · exact leads_after (moves_typeCode type) fun _ typeCode _ _ => leads_pure fun _ =>
        .hint name type (some typeCode)
    · exact leads_pure fun _ => .hint name type none
  | ifElse condition thenBody elseBody =>
    rw [Node.called_ifElse]
    refine (expr_leads condition).bind fun code => (body_leads false thenBody).bind fun stmts =>
      (elseBranches_leads elseBody).ends ?_
    rintro ⟨branches, otherwise⟩
    refine ⟨_, rfl, ?_⟩
    rintro m later n' hbranches k _ ⟨rfl, hbody⟩ n functions hcode
    exact .ifElse hcode hbody hbranches
  | loop condition inner =>
    refine (expr_leads condition).pair (body_leads false inner) ?_
    rintro code stmts n functions k _ n' hcode ⟨rfl, hbody⟩
    rw [append_nil]
    exact .loop hcode hbody
  | select subject arms =>
    rw [Node.called_select]
    refine leads_fresh fun n => (expr_leads subject).bind fun code => (choices_leads arms).ends ?_
    rintro ⟨emitted, otherwise⟩
    refine ⟨_, rfl, ?_⟩
    rintro k later n' hchoices _ functions hcode rfl
    exact .select hcode hchoices
  | thread kind inner =>
    refine leads_fresh fun n => (body_leads false inner).within ?_
    rintro stmts _ n' hbody rfl
    exact .thread kind hbody
  | special name value =>
    rw [Node.called_leaf rfl]
    refine Leads.done (P := fun stmt n functions n' =>
      NodeBecomes setting n (.special name value) functions [stmt] n') ?_ fun _ _ _ _ h => h
    unfold specialStmt
    split
    · subst name
      exact (expr_leads value).done fun _ _ _ _ => .setModel
    · split
      · subst name
        exact (expr_leads value).done fun _ _ _ _ => .setMessages
      · exact fun s stmt s' h => absurd h (fails_fail _ s stmt s')
  | timed inner prints =>
    refine leads_nextIndex fun n => (body_leads false inner).within ?_
    rintro stmts _ n' hbody rfl
    exact .timed prints hbody
  | importNames kind names path =>
    exact leads_after (moves_importStmt kind names path) fun _ stmt _ hstmt => leads_pure fun _ =>
      .importNames hstmt
  | importNodes names path => exact leads_pure fun _ => .importNodes names path
  | importTools names path => exact leads_pure fun _ => .importTools names path
  | comment text => exact leads_pure fun _ => .comment text
  | blockComment text => exact leads_pure fun _ => .blockComment text
  | newline => exact leads_pure fun _ => .newline
termination_by structural n

theorem body_leads (afterLineEnd : Bool) (inner : List Node) :
    Leads setting (body setting afterLineEnd inner) (Node.listCalled inner)
      fun stmts n functions n' => functions = [] ∧ BodyBecomes setting n inner stmts n' := by
  cases inner with
  | nil => exact leads_pure fun _ => ⟨rfl, .nil⟩
  | cons first rest =>
    by_cases hline : first = .newline
    · subst hline
      rw [body_newline]
      exact (body_leads true rest).within fun _ _ _ hbody => ⟨rfl, .newline afterLineEnd hbody⟩
    · rw [body_cons hline, Node.listCalled_cons]
      refine (node_leads first).collecting.bind ?_
      rintro ⟨hoisted, own⟩
      refine (body_leads false rest).within ?_
      rintro others k n' hbody n _ ⟨rfl, functions, rfl, hstmts⟩
      exact ⟨rfl, .cons hstmts hbody⟩
termination_by structural inner

theorem elseBranches_leads (other : Option (List Node)) :
    Leads setting (elseBranches setting other) (Node.otherwiseCalled other)
      fun result n functions n' =>
        ElseBecomes setting n other functions result.1 result.2 n' := by
  cases other with
  | none => exact leads_pure fun _ => .none
  | some nodes =>
    -- Unless a single branching continues the chain, the nodes are a body.
    have hbody (hlast : ∀ condition thenBody elseBody,
        nodes ≠ [.ifElse condition thenBody elseBody]) :
        Leads setting (do return ([], some (← body setting false nodes)))
          (Node.otherwiseCalled (some nodes)) fun result n functions n' =>
          ElseBecomes setting n (some nodes) functions result.1 result.2 n' :=
      (body_leads false nodes).within fun _ _ _ => .last hlast
    cases nodes with
    | nil => exact hbody (by simp)
    | cons n rest =>
      cases rest with
      | cons second others => cases n <;> exact hbody (by simp)
      | nil =>
        cases n with
        | ifElse condition thenBody elseBody =>
          rw [Node.otherwiseCalled_chain]
          refine (expr_leads condition).bind fun code =>
            (body_leads false thenBody).bind fun stmts => (elseBranches_leads elseBody).ends ?_
          rintro ⟨branches, otherwise⟩
          refine ⟨_, rfl, ?_⟩
          rintro m later n' hbranches k _ ⟨rfl, hbody⟩ n functions hcode
          exact .chain hcode hbody hbranches
        | _ => exact hbody (by simp)
termination_by structural other

theorem choices_leads (arms : List Arm) :
    Leads setting (choices setting arms) (Node.armsCalled arms) fun result n functions n' =>
      ArmsBecome setting n arms functions result.1 result.2 n' := by
  cases arms with
  | nil => exact leads_pure fun _ => .nil
  | cons first rest =>
    cases first with
    | comment text =>
      refine (choices_leads rest).ends ?_
      rintro ⟨others, otherwise⟩
      exact ⟨_, rfl, fun _ _ _ => .comment text⟩
    | arm value inner =>
      cases value with
      | none =>
        refine (node_leads inner).collecting.ends ?_
        rintro ⟨hoisted, own⟩
        refine ⟨_, rfl, ?_⟩
        rintro n _ n' ⟨rfl, functions, rfl, hstmts⟩
        exact .left rest hstmts
      | some value =>
        refine Leads.perm ((expr_leads value).bind fun code =>
          (node_leads inner).collecting.bind ?_) (Node.armsCalled_arm value inner rest)
        rintro ⟨hoisted, own⟩
        refine (choices_leads rest).ends ?_
        rintro ⟨others, otherwise⟩
        refine ⟨_, rfl, ?_⟩
        rintro m later n' hchoices k _ ⟨rfl, own, rfl, hstmts⟩ n functions hcode
        exact .arm hcode hstmts hchoices
termination_by structural arms

end

/-! ### Sections of the top level -/

theorem statement_leads (n : Node) : Leads setting (statement setting n) n.called
    fun stmts k waiting k' => waiting = [] ∧ ∃ functions own,
      stmts = functions.map .prompt ++ own ∧ NodeBecomes setting k n functions own k' := by
  refine (node_leads n).collecting.ends ?_
  rintro ⟨hoisted, own⟩
  refine ⟨_, rfl, ?_⟩
  rintro k _ k' ⟨rfl, functions, rfl, hown⟩
  exact ⟨rfl, functions, own, rfl, hown⟩

theorem stepSection_leads {n : Node} (hn : n.isStep) :
    Leads setting (stepSection setting n) n.called fun part k waiting k' =>
      waiting = [] ∧ PartBecomes setting k n [part] k' := by
  refine leads_fresh fun k => Leads.within (P := fun stmts m k' => m = k + 1 → ∀ assigned,
    PartBecomes setting k n [.step ⟨.step, k + 1⟩ assigned stmts] k') (.inScope _ _ ?_)
    fun stmts m k' hstmts hm => ⟨rfl, hstmts hm _⟩
  unfold stepBody
  cases hvalue : plainValue? n with
  | some value =>
    obtain rfl := plainValue?_eq_some hvalue
    rw [Node.called_leaf rfl]
    refine leads_fresh fun m => (expr_leads value).collecting.ends ?_
    rintro ⟨hoisted, code⟩
    refine ⟨_, rfl, ?_⟩
    rintro _ _ k' ⟨rfl, functions, rfl, hcode⟩ rfl
    refine ⟨rfl, ?_⟩
    rintro rfl assigned
    exact .value assigned hvalue hcode
  | none =>
    refine (statement_leads n).within ?_
    rintro _ m k' ⟨functions, own, rfl, hnode⟩
    refine ⟨rfl, ?_⟩
    rintro rfl assigned
    exact .step assigned hn hnode

theorem nodeSections_leads (n : Node) : Leads setting (nodeSections setting n) n.called
    fun group k waiting k' => waiting = [] ∧ PartBecomes setting k n group k' := by
  cases n with
  | newline => exact leads_pure fun _ => ⟨rfl, .newline⟩
  | function name parameters inner returns doc =>
    rw [← append_nil (Node.called _)]
    refine (statement_leads _).bind fun stmts => leads_fresh fun m => leads_pure ?_
    rintro _ rfl k _ ⟨rfl, functions, own, rfl, hnode⟩
    exact ⟨rfl, .function hnode⟩
  | graphNode name parameters inner returns visibility =>
    refine (statement_leads _).within ?_
    rintro _ k k' ⟨functions, own, rfl, hnode⟩
    exact ⟨rfl, .graphNode hnode⟩
  | comment | blockComment | importNames | importNodes | importTools | hint | uses =>
    refine (statement_leads _).within ?_
    rintro _ k k' ⟨functions, own, rfl, hnode⟩
    exact ⟨rfl, .outside rfl hnode⟩
  | _ => exact (stepSection_leads rfl).done fun _ _ _ _ h => h

theorem mapM_leads (nodes : List Node) :
    Leads setting (nodes.mapM (nodeSections setting)) (Node.listCalled nodes)
      fun groups k waiting k' => waiting = [] ∧ PartsBecome setting k nodes groups.flatten k' := by
  induction nodes with
  | nil => exact leads_pure fun _ => ⟨rfl, .nil⟩
  | cons n rest ih =>
    rw [mapM_cons, Node.listCalled_cons]
    refine (nodeSections_leads n).pair ih ?_
    rintro group others k _ m _ k' ⟨rfl, hfirst⟩ ⟨rfl, hrest⟩
    exact ⟨rfl, .cons hfirst hrest⟩

theorem sections_leads : Leads setting (Compile.sections setting program) program.called
    fun sections k waiting k' => waiting = [] ∧
      (k = 0 → SectionsBecome setting program.nodes sections k') := by
  unfold Compile.sections
  cases hbackend : setting.backend with
  | script =>
    refine (body_leads false program.nodes).within ?_
    rintro stmts _ k' hstmts
    refine ⟨rfl, ?_⟩
    rintro rfl
    exact .script hbackend hstmts
  | graph =>
    refine (mapM_leads program.nodes).within ?_
    rintro groups _ k' hparts
    refine ⟨rfl, ?_⟩
    rintro rfl
    exact .graph hbackend hparts

end AgentLang.Compile

namespace AgentLang.Program

open Compile

variable {program : Program} {options : CompileOptions} {compiled : Compiled}

/-- A program that is compiled becomes its module, which uses the built-ins that are called. -/
theorem becomes_of_compile (h : program.compile options = .ok compiled) :
    SectionsBecome (program.setting options.backend) program.nodes compiled.module.sections
        compiled.state.context.counter ∧
      ∀ builtin, builtin ∈ compiled.module.used ↔
        builtin ∈ program.called.filterMap (program.setting options.backend).builtin? := by
  obtain ⟨functions, ⟨rfl, hbecomes⟩, -, hused⟩ :=
    sections_leads _ _ _ (sections_of_compile h)
  refine ⟨hbecomes rfl, fun builtin => ?_⟩
  rw [used_of_compile h, hused builtin]
  simp

end AgentLang.Program
