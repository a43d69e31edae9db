import AgentLang.Proofs.Grammar.Succession

/-!
# Access chains are maximal

A name, a call or an access chain that stands as an operand, as an argument or as an item is never
cut short: no further step of a chain can be read behind it.
-/

namespace AgentLang

/-- Whether steps of a chain may follow the expression. -/
def Expr.chains : Expr → Bool
  | .name _ | .call .. | .access .. => true
  | _ => false

namespace Grammar

open Verdict

variable {text : List Char} {i n : Nat} {e : Expr}

theorem read_accessSteps (hi : i ≤ text.length) (hbase : read text accessBase i = .ok e n) :
    read text access i = ((read text chainStep n).bind fun step m =>
      (read text (.many chainStep) m).map (step :: ·)).map (.access e) := by
  have hbody : read text access i =
      read text (Expr.access <$> accessBase <*> .many1 chainStep) i := read_access
  rw [hbody, read_ap, read_fmap, hbase]
  change (read text (.many1 chainStep) n).map _ = _
  rw [read_many1 (read_bounds hbase hi).2.1 rfl, read_seq, read_map]
  cases read text chainStep n <;> rfl

/-- A chain ends where no further step can be read. -/
theorem chainStep_misses (hi : i ≤ text.length) (h : read text access i = .ok e n) :
    read text chainStep n = .miss := by
  obtain ⟨m, -, ⟨base, hbase⟩, -, -⟩ := access_spans hi ⟨e, h⟩
  rw [read_accessSteps hi hbase, map_eq_ok] at h
  obtain ⟨steps, hsteps, -⟩ := h
  obtain ⟨step, k, hstep, hothers⟩ := bind_eq_ok.mp hsteps
  obtain ⟨others, hmany, -⟩ := map_eq_ok.mp hothers
  have hm := (read_bounds hbase hi).2.1
  exact (chain_of_many (read_bounds hstep hm).2.1 rfl hmany).2

/-- Where there is no chain, no step can be read behind what a chain would begin with. -/
theorem chainStep_misses_of_base (hi : i ≤ text.length) (haccess : read text access i = .miss)
    (hbase : read text accessBase i = .ok e n) : read text chainStep n = .miss := by
  rw [read_accessSteps hi hbase, map_eq_miss, bind_eq_miss] at haccess
  refine haccess.resolve_right fun ⟨step, m, hstep, hothers⟩ => ?_
  have hm := (read_bounds hstep (read_bounds hbase hi).2.1).2.1
  exact read_many_ne_miss hm (map_eq_miss.mp hothers)

/-! ### What may not be followed by a step -/

theorem chains_fmap {α : Type} {p : Parser α} {f : α → Expr} (hf : ∀ a, (f a).chains = false)
    (h : read text (f <$> p) i = .ok e n) : e.chains = false := by
  rw [read_fmap] at h
  obtain ⟨a, -, rfl⟩ := map_eq_ok.mp h
  exact hf a

theorem chains_prompt (h : read text prompt i = .ok e n) : e.chains = false := by
  rw [read_prompt] at h
  simp only [promptBody, read_choice_cons, read_choice_nil, orElse_miss, orElse_eq_ok] at h
  rcases h with hbacktick | ⟨-, hllm⟩
  · exact chains_fmap (fun _ => rfl) hbacktick
  · simp only [llmPrompt, read_keep, read_ap, read_fmap, bind_eq_ok, map_eq_ok] at hllm
    obtain ⟨_, _, ⟨_, _, ⟨_, _, ⟨_, -, rfl⟩, _, -, rfl⟩, _, -, rfl⟩, _, -, rfl⟩ := hllm
    rfl

theorem chains_scalar (h : read text scalar i = .ok e n) : e.chains = false := by
  rw [read_scalar] at h
  simp only [scalarLiteral, read_choice_cons, read_choice_nil, orElse_miss, orElse_eq_ok,
    read_number] at h
  rcases h with h | ⟨-, h | ⟨-, h | ⟨-, h⟩⟩⟩ <;> exact chains_fmap (fun _ => rfl) h

/-! ### Operands, arguments and items -/

/-- The alternatives that operands, arguments and items have in common come before all others. -/
theorem chainStep_misses_of_choice (hi : i ≤ text.length)
    (hothers : read text (.choice others) i = .ok e n → read text literal i = .ok e n)
    (h : read text (.choice (prompt :: access :: callExpr :: others)) i = .ok e n)
    (he : e.chains = true) : read text chainStep n = .miss := by
  have hprompt : read text prompt i ≠ .ok e n := fun h =>
    Bool.false_ne_true ((chains_prompt h).symm.trans he)
  simp only [read_choice_cons, orElse_eq_ok] at h
  rcases h with h | ⟨-, haccess | ⟨haccess, hcall | ⟨hcall, h⟩⟩⟩
  · exact absurd h hprompt
  · exact chainStep_misses hi haccess
  · refine chainStep_misses_of_base hi haccess (e := e) ?_
    rw [accessBase, read_choice_cons, hcall]
    rfl
  · have hliteral := hothers h
    rw [read_literal] at hliteral
    simp only [literalBody, read_choice_cons, read_choice_nil, orElse_miss, orElse_eq_ok]
      at hliteral
    rcases hliteral with h | ⟨-, hscalar | ⟨-, hname⟩⟩
    · exact absurd h hprompt
    · exact absurd ((chains_scalar hscalar).symm.trans he) Bool.false_ne_true
    · refine chainStep_misses_of_base hi haccess (e := e) ?_
      rw [accessBase, read_choice_cons, hcall, read_choice_cons, hname]
      rfl

theorem chainStep_misses_of_noun (hi : i ≤ text.length)
    (h : read text (.choice [prompt, access, callExpr, objectExpr, array, literal]) i = .ok e n)
    (he : e.chains = true) : read text chainStep n = .miss := by
  refine chainStep_misses_of_choice hi (fun h => ?_) h he
  simp only [read_choice_cons, read_choice_nil, orElse_miss, orElse_eq_ok, read_array] at h
  rcases h with hobject | ⟨-, harray | ⟨-, hliteral⟩⟩
  · exact absurd ((chains_fmap (fun _ => rfl) hobject).symm.trans he) Bool.false_ne_true
  · exact absurd ((chains_fmap (fun _ => rfl) harray).symm.trans he) Bool.false_ne_true
  · exact hliteral

/-- Where a name, a call or an access chain is read as an operand, as an argument or as an item, a
step of a chain is tried behind it in vain. The attempt does not even fail for good. -/
theorem chains_maximal (text : List Char) (pos : Nat) {p : Parser Expr}
    (hp : p ∈ [operand, argument, item]) {e : Expr} {next : Parse.Cursor} {reach : Parse.Reach}
    (h : run? p text pos = some ⟨.success e next, reach⟩) (he : e.chains = true) :
    ∃ place reach', run? chainStep text next.pos = some ⟨.failure place none, reach'⟩ := by
  have hread : read text p pos = .ok e next.pos := read_eq_of_run? h
  have hmiss : read text chainStep next.pos = .miss := by
    simp only [List.mem_cons, List.not_mem_nil, or_false] at hp
    rcases hp with rfl | rfl | rfl
    · exact chainStep_misses_of_noun (le_of_read rfl hread) (read_operand.symm.trans hread) he
    · refine chainStep_misses_of_choice (le_of_read rfl hread) (fun h => ?_)
        (read_argument.symm.trans hread) he
      simpa [read_choice_cons, read_choice_nil] using h
    · exact chainStep_misses_of_noun (le_of_read rfl hread) ((read_call .item).symm.trans hread) he
  obtain ⟨⟨⟨step, last⟩ | ⟨place, _ | message⟩, reach'⟩, hrun⟩ :=
    exists_run? chainStep text next.pos
  · cases (read_eq_of_run? hrun).symm.trans hmiss
  · exact ⟨place, reach', hrun⟩
  · cases (read_eq_of_run? hrun).symm.trans hmiss

theorem chains_maximal_call :
    ∃ e next reach, run? operand "f(a.b)[0].c + 1".toList 0 = some ⟨.success e next, reach⟩ ∧
      e.chains = true ∧ next.pos = 11 ∧
      ∃ place reach', run? chainStep "f(a.b)[0].c + 1".toList next.pos =
        some ⟨.failure place none, reach'⟩ := by
  have hrun : run? operand "f(a.b)[0].c + 1".toList 0 = some _ :=
    run?_eq_some_iff.mpr ⟨12, rfl⟩
  exact ⟨_, _, _, hrun, rfl, rfl, chains_maximal _ _ (by simp) hrun rfl⟩

end Grammar
end AgentLang
