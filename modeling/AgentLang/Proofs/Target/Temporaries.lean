import AgentLang.Proofs.Number.Written
import AgentLang.Proofs.Target.Calls

/-!
# Temporary names of emitted code

A construct of the emitted code that takes a number binds the temporary names with that number: one
of them, or the two names of a time measurement. Numbers that are all different make all of these
names different.
-/

namespace AgentLang.Target

open List

/-! ### Names -/

/-- The number stands behind the last mark, so the word and the number can be read off a name. -/
theorem numbered_inj (h : numbered word first = numbered other second) :
    word = other ∧ first = second := by
  have hcut (word : String) (n : Nat) : Text.splitAt '_' (numbered word n).toList.reverse =
      (Nat.repr n).toList.reverse :: Text.splitAt '_' (word.toList.reverse ++ ['_']) := by
    rw [← Number.splitAt_append _ (by simp)]
    simp [numbered]
  have hsplit := hcut word first
  rw [h, hcut] at hsplit
  obtain ⟨hrepr, -⟩ := List.cons.inj hsplit
  have hnumber : Nat.repr first = Nat.repr second :=
    String.toList_inj.mp (reverse_inj.mp hrepr.symm)
  refine ⟨?_, Nat.repr_inj.mp hnumber⟩
  simpa [numbered, hnumber] using h

theorem Purpose.word_injective : Function.Injective Purpose.word := by
  intro first second h
  cases first <;> cases second <;> first | rfl | exact absurd h (by decide)

theorem Temp.toText_injective : Function.Injective Temp.toText := by
  intro first second h
  obtain ⟨hword, hindex⟩ := numbered_inj h
  have hpurpose : first.purpose = second.purpose := Purpose.word_injective hword
  cases first
  cases second
  exact congrArg₂ Temp.mk hpurpose hindex

/-! ### What binds them -/

namespace Stmt

/-- The temporary names that a statement binds by itself. -/
def binds : Stmt → List Temp
  | .prompt function => [⟨.prompt, function.index⟩]
  | .hold temp _ => [temp]
  | .select subject .. => [subject]
  | .thread saved .. => [saved]
  | .timed index .. => [⟨.timeStart, index⟩, ⟨.timeEnd, index⟩]
  | _ => []

/-- The temporary name that a statement returns the value of. -/
def held? : Stmt → Option Temp
  | .retHeld temp => some temp
  | _ => none

end Stmt

/-- The prompt function that a call asks. -/
def Call.temp? : Call → Option Temp
  | .prompt index _ => some ⟨.prompt, index⟩
  | _ => none

/-- Whatever can take a number: a statement, or the function that a section is. -/
inductive Construct where
  | stmt (stmt : Stmt)
  | part (part : Section)

namespace Construct

def number? : Construct → Option Nat
  | .stmt inner => inner.number?
  | .part (.functionNode _ _ holder) => some holder.index
  | .part (.step temp ..) => some temp.index
  | .part _ => none

def binds : Construct → List Temp
  | .stmt inner => inner.binds
  | .part (.functionNode _ _ holder) => [holder]
  | .part (.step temp ..) => [temp]
  | .part _ => []

/-- The names say what they are bound for. -/
def Purposed : Construct → Prop
  | .stmt (.hold temp _) => temp.purpose = .result
  | .stmt (.select subject ..) => subject.purpose = .subject
  | .stmt (.thread saved ..) => saved.purpose = .savedMessages
  | .part (.functionNode _ _ holder) => holder.purpose = .result
  | .part (.step temp ..) => temp.purpose = .step
  | _ => True

/-- A construct binds its temporary names with its own number. Only a time measurement has two. -/
theorem binds_eq (construct : Construct) :
    (construct.number? = none ∧ construct.binds = []) ∨
      (∃ temp, construct.number? = some temp.index ∧ construct.binds = [temp]) ∨
      ∃ index, construct.number? = some index ∧
        construct.binds = [⟨.timeStart, index⟩, ⟨.timeEnd, index⟩] := by
  cases construct with
  | stmt inner =>
    cases inner with
    | prompt function => exact .inr (.inl ⟨⟨.prompt, function.index⟩, rfl, rfl⟩)
    | hold temp value => exact .inr (.inl ⟨temp, rfl, rfl⟩)
    | select subject value arms otherwise => exact .inr (.inl ⟨subject, rfl, rfl⟩)
    | thread saved kind body binding => exact .inr (.inl ⟨saved, rfl, rfl⟩)
    | timed index body prints binding => exact .inr (.inr ⟨index, rfl, rfl⟩)
    | _ => exact .inl ⟨rfl, rfl⟩
  | part inner =>
    cases inner with
    | functionNode name arity holder => exact .inr (.inl ⟨holder, rfl, rfl⟩)
    | step temp assigned body => exact .inr (.inl ⟨temp, rfl, rfl⟩)
    | _ => exact .inl ⟨rfl, rfl⟩

theorem number?_of_mem_binds {construct : Construct} {temp : Temp} (h : temp ∈ construct.binds) :
    construct.number? = some temp.index := by
  obtain ⟨-, hbinds⟩ | ⟨only, hnumber, hbinds⟩ | ⟨index, hnumber, hbinds⟩ := construct.binds_eq
  · rw [hbinds] at h
    cases h
  · rw [hbinds, List.mem_singleton] at h
    rw [h, hnumber]
  · rw [hbinds] at h
    rcases mem_cons.mp h with rfl | h
    · exact hnumber
    · rw [List.mem_singleton.mp h]
      exact hnumber

theorem nodup_binds (construct : Construct) : construct.binds.Nodup := by
  obtain ⟨-, hbinds⟩ | ⟨temp, -, hbinds⟩ | ⟨index, -, hbinds⟩ := construct.binds_eq
  · simp [hbinds]
  · simp [hbinds]
  · simp [hbinds]

theorem nodup_flatMap_binds {constructs : List Construct}
    (h : (constructs.filterMap number?).Nodup) : (constructs.flatMap binds).Nodup := by
  rw [nodup_flatMap]
  refine ⟨fun construct _ => construct.nodup_binds, ?_⟩
  refine (pairwise_filterMap.mp h).imp fun {first second} hne => ?_
  intro temp hfirst hsecond
  exact hne _ (number?_of_mem_binds hfirst) _ (number?_of_mem_binds hsecond) rfl

theorem mem_filterMap_number? {constructs : List Construct} {temp : Temp}
    (h : temp ∈ constructs.flatMap binds) : temp.index ∈ constructs.filterMap number? := by
  obtain ⟨construct, hmem, htemp⟩ := mem_flatMap.mp h
  exact mem_filterMap.mpr ⟨construct, hmem, number?_of_mem_binds htemp⟩

theorem exists_of_index_eq {constructs : List Construct} (h : (constructs.filterMap number?).Nodup)
    {first second : Temp} (hfirst : first ∈ constructs.flatMap binds)
    (hsecond : second ∈ constructs.flatMap binds) (hindex : first.index = second.index) :
    ∃ construct ∈ constructs, first ∈ construct.binds ∧ second ∈ construct.binds := by
  induction constructs with
  | nil => cases hfirst
  | cons construct rest ih =>
    -- The number of this construct is not among those of the others.
    have hfresh {one other : Temp} (hone : one ∈ construct.binds)
        (hother : other ∈ rest.flatMap binds) : one.index ≠ other.index := by
      rw [filterMap_cons_some (number?_of_mem_binds hone), nodup_cons] at h
      exact fun heq => h.1 (heq ▸ mem_filterMap_number? hother)
    have hrest : (rest.filterMap number?).Nodup :=
      h.sublist ((sublist_cons_self construct rest).filterMap number?)
    rw [flatMap_cons, mem_append] at hfirst hsecond
    rcases hfirst with hfirst | hfirst
    · rcases hsecond with hsecond | hsecond
      · exact ⟨construct, mem_cons_self, hfirst, hsecond⟩
      · exact absurd hindex (hfresh hfirst hsecond)
    · rcases hsecond with hsecond | hsecond
      · exact absurd hindex.symm (hfresh hsecond hfirst)
      · obtain ⟨other, hother, hboth⟩ := ih hrest hfirst hsecond
        exact ⟨other, mem_cons_of_mem _ hother, hboth⟩

end Construct

/-- The two names are the same, or they are the start and the end of one time measurement. -/
def Temp.SameConstruct (first second : Temp) : Prop :=
  first = second ∨ (first.purpose = .timeStart ∧ second.purpose = .timeEnd) ∨
    (first.purpose = .timeEnd ∧ second.purpose = .timeStart)

theorem Construct.sameConstruct {construct : Construct} {first second : Temp}
    (hfirst : first ∈ construct.binds) (hsecond : second ∈ construct.binds) :
    first.SameConstruct second := by
  obtain ⟨-, hbinds⟩ | ⟨temp, -, hbinds⟩ | ⟨index, -, hbinds⟩ := construct.binds_eq
  · rw [hbinds] at hfirst
    cases hfirst
  · rw [hbinds, List.mem_singleton] at hfirst hsecond
    exact .inl (hfirst.trans hsecond.symm)
  · rw [hbinds, mem_pair] at hfirst hsecond
    rcases hfirst with rfl | rfl <;> rcases hsecond with rfl | rfl <;> simp [Temp.SameConstruct]

/-! ### Modules -/

def Section.constructs (part : Section) : List Construct := .part part :: part.parts.map .stmt

theorem Section.filterMap_number? (part : Section) :
    (part.constructs.filterMap Construct.number? : Multiset Nat) = part.tally.numbers := by
  have hstmts (stmts : List Stmt) :
      (stmts.map Construct.stmt).filterMap Construct.number? = stmts.filterMap Stmt.number? := by
    rw [filterMap_map]
    rfl
  cases part with
  | statements body => exact congrArg _ (hstmts (Stmt.listParts body))
  | functionNode | entryPoint => rfl
  | step temp assigned body =>
    exact congrArg (fun numbers => (↑(temp.index :: numbers) : Multiset Nat))
      (hstmts (Stmt.listParts body))

namespace Module

/-- Everything in a module that can take a number. -/
def constructs (module : Module) : List Construct := module.sections.flatMap Section.constructs

/-- The numbers that are taken, one for each construct that takes one. -/
def numbers (module : Module) : List Nat := module.constructs.filterMap Construct.number?

/-- The temporary names as often as they are bound. -/
def binds (module : Module) : List Temp := module.constructs.flatMap Construct.binds

/-- The temporary names that are used apart from the construct that binds them: by calls of prompt
functions, by returns, and by the edges between steps. -/
def uses (module : Module) : List Temp :=
  module.calls.filterMap Call.temp? ++ module.parts.filterMap Stmt.held? ++
    module.edges.flatMap fun (start, stop) => [start, stop]

theorem numbers_eq (module : Module) :
    (module.numbers : Multiset Nat) = (Section.listTally module.sections).numbers := by
  unfold numbers constructs
  induction module.sections with
  | nil => rfl
  | cons part rest ih =>
    rw [flatMap_cons, filterMap_append, ← Multiset.coe_add, ih,
      part.filterMap_number?, Section.listTally_cons, Tally.numbers_add]

theorem mem_binds_of_part {module : Module} {stmt : Stmt} {temp : Temp} (h : stmt ∈ module.parts)
    (htemp : temp ∈ stmt.binds) : temp ∈ module.binds := by
  obtain ⟨part, hpart, hstmt⟩ := mem_flatMap.mp h
  have hconstruct : .stmt stmt ∈ module.constructs := mem_flatMap.mpr
    ⟨part, hpart, mem_cons_of_mem _ (mem_map_of_mem hstmt)⟩
  exact mem_flatMap.mpr ⟨_, hconstruct, htemp⟩

theorem mem_binds_of_step {module : Module} {temp : Temp} (h : temp ∈ module.steps) :
    temp ∈ module.binds := by
  obtain ⟨part, hpart, htemp⟩ := mem_filterMap.mp h
  have hconstruct : .part part ∈ module.constructs :=
    mem_flatMap.mpr ⟨part, hpart, mem_cons_self⟩
  refine mem_flatMap.mpr ⟨_, hconstruct, ?_⟩
  cases part with
  | step own assigned body =>
    obtain rfl := Option.some.inj htemp
    exact mem_singleton_self own
  | _ => cases htemp

end Module
end AgentLang.Target
