import AgentLang.Proofs.Grammar.CutDeclaration

/-!
# Reading is local

The items that were read from the start of a text are all that a text needs which ends behind them:
cut off where the items stop, the text is a program, and it is made of these items.
-/

namespace AgentLang

open List

namespace Grammar

open Verdict
open Parse (Pattern)
open Parse.Parser (lit word)

variable {α : Type} {text : List Char} {i n last : Nat} {nodes : List Node}

/-! ### Where an item has ended -/

theorem last_of_token (hi : i ≤ text.length) (h : Spans text (.token shape name) i n) (hlt : i < n) :
    ∃ taken a, shape.Accepts taken ∧ taken.getLast? = some a ∧ (text.take n).getLast? = some a := by
  obtain ⟨v, h⟩ := h
  rw [read_token hi] at h
  split at h
  next k hmatch =>
    cases h
    obtain ⟨hk, haccepted⟩ := Pattern.match?_accepts hmatch
    have hne : (text.drop i).take k ≠ [] := by
      rw [← length_pos_iff, length_take]
      omega
    refine ⟨_, _, haccepted, List.getLast?_eq_some_getLast hne, ?_⟩
    rw [take_add, List.getLast?_append_of_ne_nil _ hne, List.getLast?_eq_some_getLast hne]
  next => cases h

theorem tight_of_last (h : front.getLast? = some a) (ha : a ∈ ended) : Tight front back := by
  intro b c hb _
  cases h.symm.trans hb
  exact .inl ha

theorem tight_of_next (h : Ends text stops n) : Tight (text.take n) (text.drop n) :=
  fun _ b _ hb => .inr (h b hb)

theorem tight_of_newline (hi : i ≤ text.length) (h : Spans text newline i n) :
    Tight (text.take n) (text.drop n) := by
  obtain ⟨_, a, haccepted, hlast, hend⟩ :=
    last_of_token hi (spans_fmap.mp h) ((h.bounds hi).2.2 rfl)
  obtain ⟨u, v, -, rfl, rfl⟩ := haccepted
  rw [List.getLast?_append_of_ne_nil u (by decide)] at hlast
  cases hlast
  exact tight_of_last hend (by decide)

theorem tight_of_blockComment (hi : i ≤ text.length) (h : Spans text blockComment i n) :
    Tight (text.take n) (text.drop n) := by
  obtain ⟨_, a, haccepted, hlast, hend⟩ :=
    last_of_token hi (spans_fmap.mp h) ((h.bounds hi).2.2 rfl)
  obtain ⟨u, _, -, ⟨before, rfl⟩, rfl⟩ := haccepted
  rw [← append_assoc, List.getLast?_append_of_ne_nil _ (by decide)] at hlast
  cases hlast
  exact tight_of_last hend (by decide)

theorem tight_of_comment (hi : i ≤ text.length) (h : Spans text comment i n) :
    Tight (text.take n) (text.drop n) := by
  obtain ⟨k, hslashes, hrest⟩ := (spans_token_seq hi).mp (spans_fmap.mp (spans_fmap.mp h))
  have hk := hslashes.inside hi
  have hn := hrest.inside hk
  obtain ⟨v, hrest⟩ := hrest
  rw [read_token_star hk, read_map, map_eq_ok] at hrest
  obtain ⟨pieces, hmany, -⟩ := hrest
  have hmiss := (chain_of_many hk rfl hmany).2
  refine tight_of_next fun c hc => ?_
  rw [read_token hn] at hmiss
  cases hdrop : text.drop n with
  | nil => cases hdrop ▸ hc
  | cons d rest =>
    rw [hdrop] at hc hmiss
    cases hc
    simp only [Pattern.match?, Shape.except] at hmiss
    split at hmiss
    · cases hmiss
    next hnone =>
      have hfeed : c = '\n' := by simpa using hnone
      rw [hfeed]
      decide

theorem tight_of_statementEnd (hi : i ≤ text.length) (h : Spans text statementEnd i n) :
    Tight (text.take n) (text.drop n) := by
  rcases statementEnd_cases h with hsemicolons | ⟨-, hblanks, -⟩
  · obtain ⟨taken, a, haccepted, hlast, hend⟩ :=
      last_of_token hi hsemicolons ((hsemicolons.bounds hi).2.2 rfl)
    have hwithin : Within (fun c => [' ', '\t', ';'].contains c) (.star (Shape.among " \t") ++
        .lit ";" ++ .star (Shape.among " \t;")) := by
      refine ⟨⟨fun c hc => ?_, rfl⟩, fun c hc => hc⟩
      exact elem_eq_true_of_mem (mem_append_left [';'] (mem_of_elem_eq_true hc))
    have ha := hwithin.of_accepts haccepted a (mem_of_getLast? hlast)
    have hended : [' ', '\t', ';'] ⊆ ended := by decide
    exact tight_of_last hend (hended (mem_of_elem_eq_true ha))
  · exact tight_of_next ((statementEnd_ends hi hblanks h).mono (by decide))

theorem tight_of_item (hi : i ≤ text.length) (h : Spans text bodyItem i n) :
    Tight (text.take n) (text.drop n) := by
  obtain ⟨k, hblanks, hcases⟩ := item_spans h
  have hk := hblanks.inside hi
  rcases hcases with hline | hcomment | hcomment | hstatement
  · exact tight_of_newline hk hline
  · exact tight_of_comment hk hcomment
  · exact tight_of_blockComment hk hcomment
  · obtain ⟨m, hstatement, hend⟩ := spans_keep.mp hstatement
    exact tight_of_statementEnd (hstatement.inside hk) hend

theorem tight_of_chain (h : Chain text bodyItem i nodes last) (hi : i ≤ text.length)
    (ht : Tight (text.take i) (text.drop i)) : Tight (text.take last) (text.drop last) := by
  induction h with
  | nil i => exact ht
  | cons hfirst _ ih =>
    exact ih (read_bounds hfirst hi).2.1 (tight_of_item hi ⟨_, hfirst⟩)

/-! ### The text that ends behind the items -/

/-- The items of a text and the place where they stop are determined. -/
theorem Consumed.unique (h : Consumed text i nodes last) (h' : Consumed text i nodes' last') :
    nodes = nodes' ∧ last = last' := by
  obtain ⟨hitems, hstops⟩ := h
  obtain ⟨hitems', hstops'⟩ := h'
  induction hitems generalizing nodes' last' with
  | nil i =>
    cases hitems' with
    | nil => exact ⟨rfl, rfl⟩
    | cons hitem hmoves _ =>
      exact absurd (Parse.Reply.ends_success.mp (hstops _ hitem)) hmoves
  | cons hitem hmoves _ ih =>
    cases hitems' with
    | nil => exact absurd (Parse.Reply.ends_success.mp (hstops' _ hitem)) hmoves
    | cons hitem' _ hothers =>
      cases Option.some.inj (hitem.symm.trans hitem')
      obtain ⟨rfl, rfl⟩ := ih hstops hothers hstops'
      exact ⟨rfl, rfl⟩

theorem chain_of_items (h : Items text i nodes last) : Chain text bodyItem i nodes last := by
  induction h with
  | nil i => exact .nil i
  | cons hitem _ _ ih => exact .cons (read_eq_of_run? hitem) ih

theorem read_program (h : Chain text bodyItem 0 nodes text.length) :
    read text program 0 = .ok ⟨nodes⟩ text.length := by
  have hends : Ends text [] text.length := ends_of_le (Nat.le_refl _)
  have hitems := h.many (Nat.zero_le _) rfl (hends.eq_miss (Nat.le_refl _) (by decide))
  obtain ⟨n, v, hspace⟩ : ∃ n, Spans text space text.length n :=
    spans_of_ne_miss rfl (read_certain rfl (Nat.le_refl _))
  obtain rfl := hends.spans_eq (Nat.le_refl _) ⟨v, hspace⟩ (by decide)
  rw [program, read_fmap, read_keep, read_keep, hitems]
  simp only [Verdict.bind, Verdict.map, hspace, read_eof, if_pos (Nat.le_refl text.length)]

/-- Where the items of a text stop, nothing that follows is needed to read them. -/
theorem read_program_take (h : Chain text bodyItem 0 nodes last) :
    read (text.take last) program 0 = .ok ⟨nodes⟩ last := by
  have hlast := (h.bounds (Nat.zero_le _)).2
  have hlength : (text.take last).length = last := length_take_of_le hlast
  have ht : Tight (text.take last) (text.drop last) :=
    tight_of_chain h (Nat.zero_le _) fun _ _ ha _ => nomatch ha
  have hfront : Chain (text.take last) bodyItem 0 nodes (text.take last).length := by
    rw [hlength]
    refine items_of_whole (Nat.zero_le _) (fun j _ hj => (statements_of_whole ht hj).1)
      ?_ (Nat.le_of_eq hlength.symm) (Tail.of_end (Nat.le_of_eq hlength) (Nat.le_of_eq hlength.symm))
    rwa [take_append_drop]
  have hread := read_program hfront
  rwa [hlength] at hread

end Grammar

namespace Program

variable {source : String} {file : Option Path}

theorem parse_of_read (h : Grammar.read source.toList Grammar.program 0 = .ok program n) :
    parse source file = .ok program := by
  obtain ⟨depth, ⟨outcome, reach⟩, hplain, hread⟩ :=
    Grammar.exists_plain source.toList Grammar.program 0
  cases outcome with
  | success found next =>
    cases h.symm.trans hread
    exact parse_eq_ok depth hplain rfl
  | failure pos committed => cases committed <;> cases h.symm.trans hread

/-- In every text the repetition of items stops somewhere, by an item that is missing or fails for
good, and the items before that place are determined. The text that ends there is the program made
of exactly these items, whatever followed. -/
theorem parse_take_consumed (source : String) (file : Option Path) :
    ∃ reply nodes last,
      Grammar.run? (.many Grammar.bodyItem) source.toList 0 = some reply ∧
      Grammar.StopsAt source.toList nodes last reply ∧
      (∀ nodes' last', Grammar.Consumed source.toList 0 nodes' last' ↔
        nodes' = nodes ∧ last' = last) ∧
      parse (String.ofList (source.toList.take last)) file = .ok ⟨nodes⟩ := by
  obtain ⟨reply, hrun⟩ := Grammar.exists_run? (.many Grammar.bodyItem) source.toList 0
  obtain ⟨depth, hplain⟩ := Grammar.eval_of_run? hrun
  obtain ⟨nodes, last, hconsumed, hstops⟩ :=
    Grammar.consumed_of_repeated (Parse.Cursor.on_ofPos source.toList 0) hplain
  refine ⟨reply, nodes, last, hrun, hstops, fun nodes' last' => ⟨fun h => ?_, ?_⟩, ?_⟩
  · exact h.unique hconsumed
  · rintro ⟨rfl, rfl⟩
    exact hconsumed
  · have hread := Grammar.read_program_take (Grammar.chain_of_items hconsumed.items)
    rw [← String.toList_ofList (l := source.toList.take last)] at hread
    exact parse_of_read hread

end Program
end AgentLang
