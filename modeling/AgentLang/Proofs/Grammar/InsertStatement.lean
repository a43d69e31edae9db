import AgentLang.Proofs.Grammar.InsertValue

/-!
# Inserting semicolons: statements without bodies

Statements that hold no other statements, and the lists of names and of parameters. They are the
same up to the semicolons, unless a comma, a value or the rest of a value follows them.
-/

namespace AgentLang.Grammar

open Verdict
open Parse.Parser (lit word)

variable {α β : Type} {front back rest text : List Char} {i k m n : Nat}

/-! ### Simple statements -/

variable (h : Inserted front back rest) (hi : i ≤ front.length)
include h hi

theorem Inserted.stable_typeHint : Stable front back rest typeHint i := by
  refine Keeps.seq hi ?_ fun n _ _ hn => h.stable_type hn
  refine Keeps.keep hi ?_ fun n _ _ hn => (inert_ws hn).keeps
  refine Keeps.keep hi ?_ fun n _ _ hn => (inert_lit hn (by decide)).keeps
  exact Keeps.keep hi ((inert_identifier h.tight hi).map _).keeps
    fun n _ _ hn => (inert_ws hn).keeps

theorem Inserted.persists_specialVar :
    Persists front back rest (Longer front back rest) specialVar i := by
  refine Keeps.seq hi ?_ fun n _ _ hn => h.persists_value hn
  refine Keeps.keep hi ?_ fun n _ _ hn => (inert_ws hn).keeps
  refine Keeps.keep hi ?_ fun n _ _ hn => (inert_lit hn (by decide)).keeps
  refine Keeps.keep hi ?_ fun n _ _ hn => (inert_ws hn).keeps
  refine Carries.map (Keeps.skip hi (inert_lit hi (by decide)).keeps fun n _ _ hn => ?_) _
  exact h.keeps (fun ht => firm_words ht hn (by decide) (by decide)) rfl

/-- A value follows blanks only where the semicolons stand. -/
def Answers (front back rest : List Char) (n : Nat) : Prop :=
  read (front ++ back) (ws1 *> value) n = .miss ∧ read (front ++ ';' :: rest) (ws1 *> value) n ≠ .miss

theorem Inserted.persists_return :
    Persists front back rest (fun n => Longer front back rest n ∨ Answers front back rest n)
      returnStatement i := by
  refine Carries.map (Keeps.skip hi
    (inert_word h.tight hi (by decide)).keeps fun n _ _ hn => ?_) _
  refine Carries.optional (Keeps.skip hn (inert_ws1 hn).keeps
    fun m _ _ hm => (h.persists_value hm).mono fun _ _ => .inl) ?_
  exact fun hmiss hne => .inr ⟨hmiss, hne⟩

theorem Inserted.return_misses (hmiss : read (front ++ back) returnStatement i = .miss) :
    read (front ++ ';' :: rest) returnStatement i = .miss := by
  rw [returnStatement, read_fmap, map_eq_miss] at hmiss ⊢
  exact ((inert_word h.tight hi (by decide)).map _).seq_misses hi rfl hmiss

theorem Inserted.stable_goto : Stable front back rest goto i :=
  h.keeps (fun ht => firm_goto ht hi) rfl

theorem Inserted.inert_usesHead : Inert front back rest usesHead i :=
  h.inert hi (fun ht => firm_usesHead ht hi) rfl rfl

theorem Inserted.persists_usesTool :
    Persists front back rest
      (fun n => read (front ++ ';' :: rest) (space *> lit "," : Parser String) n ≠ .miss)
      usesTool i := by
  refine Keeps.seq hi ((h.inert_usesHead hi).map _).keeps fun n _ _ hn => ?_
  refine Carries.many hn rfl (fun j _ hj => Carries.skip_spaced (K := fun _ => False) hj
    (persists_comma hj) (fun m _ _ hm => (inert_identifier h.tight hm).keeps) (by decide))
    (fun _ _ => False.elim) fun j _ _ _ hne => ?_
  obtain ⟨e, hspans⟩ := spans_of_ne_miss rfl hne
  obtain ⟨m, hcomma, -⟩ := spans_skip.mp hspans
  obtain ⟨m, hcomma, -⟩ := spans_keep.mp hcomma
  exact hcomma.ne_miss

theorem Inserted.uses_misses (hmiss : read (front ++ back) usesTool i = .miss) :
    read (front ++ ';' :: rest) usesTool i = .miss :=
  ((h.inert_usesHead hi).map _).seq_misses hi rfl hmiss

/-! ### Imports -/

omit h hi in
theorem not_otherImport {f : List String → String → Node} (heads : List Char)
    (others : List (Parser Node)) (hi : i ≤ text.length)
    (hp : ∀ m, Spans text p i m → Ends text heads i ∧ Spans text identifier i m)
    (hothers : others.all (shut heads) = true)
    (h : Spans text (f <$> (p *> ws *> nameList) <*> fromClause) i e) :
    ¬Spans text (.choice (others ++ [defaultImport])) i n := by
  intro hspans
  simp only [spans_ap, spans_fmap, spans_skip, nameList, spans_keep] at h
  obtain ⟨_, ⟨k, ⟨m, hword, hws⟩, _, ⟨_, ⟨_, ⟨_, hbrace, -⟩, -⟩, -⟩, -⟩, -⟩ := h
  obtain ⟨hends, hname⟩ := hp m hword
  obtain ⟨q, hq, hspans⟩ := choice_spans hspans
  rcases List.mem_append.mp hq with hq | hq
  · exact hends.not_spans hi (List.all_eq_true.mp hothers q hq) hspans
  · obtain rfl := List.mem_singleton.mp hq
    simp only [defaultImport, fromClause, spans_ap, spans_fmap, spans_skip] at hspans
    obtain ⟨m', hname', _, ⟨_, ⟨k', hws', hfrom⟩, -⟩, -⟩ := hspans
    obtain rfl := hname.unique hname'
    obtain rfl := hws.unique hws'
    have hk := hws.inside (hname.inside hi)
    have hbegins : Ends text ['\x7b'] k := ends_of_starts (spans_lit hk hbrace).1
    exact hbegins.clash hk hfrom (by decide)

theorem Inserted.stable_imports :
    Stable front back rest (Parse.Parser.choice
      [nodeImport, toolImport, namedImport, namespaceImport, defaultImport]) i := by
  have hnamespace : Stable front back rest (Parse.Parser.choice [namespaceImport, defaultImport]) i := by
    refine Carries.alt_of_heads ['*'] (le_append hi)
      (h.keeps (fun ht => firm_namespaceImport ht hi) rfl)
      (h.keeps (fun ht => firm_defaultImport ht hi) rfl).single rfl (fun c hc => ?_) (by decide)
    simpa [begins, namespaceImport] using hc
  have hnamed : Stable front back rest
      (Parse.Parser.choice [namedImport, namespaceImport, defaultImport]) i := by
    refine Carries.alt_of_heads ['\x7b'] (le_append hi)
      (h.keeps (fun ht => firm_namedImport ht hi) rfl) hnamespace rfl (fun c hc => ?_) (by decide)
    simpa [begins, namedImport, nameList] using hc
  have htool : Stable front back rest
      (Parse.Parser.choice [toolImport, namedImport, namespaceImport, defaultImport]) i := by
    refine Carries.alt (h.keeps (fun ht => firm_toolImport ht hi) rfl) hnamed
      fun n _ hne _ hother _ => ?_
    obtain ⟨e, hspans⟩ := spans_of_ne_miss rfl hne
    refine not_otherImport ['t'] [namedImport, namespaceImport] (le_append hi)
      (fun m hword => ⟨hword.ends _ (le_append hi) rfl fun c hc => ?_, ?_⟩) (by decide) hspans hother
    · simpa [begins] using hc
    · simp only [spans_choice_more, spans_choice_one] at hword
      rcases hword with ⟨v, hword⟩ | ⟨-, v, hword⟩ <;>
        exact read_identifier_of_word (le_append hi) hword (by decide) (by decide)
  refine Carries.alt (h.keeps (fun ht => firm_nodeImport ht hi) rfl) htool
    fun n _ hne _ hother _ => ?_
  obtain ⟨e, hspans⟩ := spans_of_ne_miss rfl hne
  refine not_otherImport ['n'] [toolImport, namedImport, namespaceImport] (le_append hi)
    (fun m hword => ⟨hword.ends _ (le_append hi) rfl fun c hc => ?_, ?_⟩) (by decide) hspans hother
  · simpa [begins] using hc
  · simp only [spans_choice_more, spans_choice_one] at hword
    rcases hword with ⟨v, hword⟩ | ⟨-, v, hword⟩ <;>
      exact read_identifier_of_word (le_append hi) hword (by decide) (by decide)

theorem Inserted.inert_importStatement : Inert front back rest importStatement i :=
  Mirrors.commit hi (h.inert hi (fun ht => cuts_importHead ht hi) rfl rfl)
    fun _ _ _ hn => h.stable_imports hn

/-! ### Parameters -/

omit h in
/-- What is closed before the semicolons, where an item may end in the given places. -/
theorem Carries.closed {p : Parser α}
    (hp : Persists front back rest (fun n => read front (space *> closing ")") n = .miss) p i) :
    Stable front back rest (p <* space <* closing ")") i := by
  have hspace : Persists front back rest (fun n => Settled front n ∨
      ∃ m, m ≤ front.length ∧ read front (space *> closing ")") m = .miss ∧
        Spans (front ++ back) space m n) (p <* space) i :=
    Carries.keep hi hp (fun n _ _ hn => (persists_space hn).mono fun _ _ => .inl)
      fun m n hm hmiss hspans _ => .inr ⟨m, hm, hmiss, hspans⟩
  refine Carries.keep hi hspace (fun n _ _ hn => (inert_closing hn (by decide)).keeps) ?_
  rintro n e hn (hsettled | ⟨m, hm, hmiss, hspans⟩) hclose he
  · exact hsettled.1.not_inside (by decide) hn hclose he
  · obtain ⟨v, hread⟩ := spans_skip.mpr ⟨n, hspans, hclose⟩
    cases hmiss.symm.trans ((follows_closed ")" hm).read hread he)

omit h hi in
theorem closed_whole (hmark : shut ['/'] (closing mark) = true) (hn : n ≤ front.length)
    (h : Spans front (space *> closing mark) n m) :
    Spans (front ++ back) (space *> closing mark) n m := by
  obtain ⟨k, hspace, hclose⟩ := spans_skip.mp h
  have hk := hspace.inside hn
  exact spans_skip.mpr ⟨k, hspace.whole_space hn hclose hmark, hclose.whole (firm_closing hk _) rfl⟩

omit h hi in
theorem Typed.clash {p : Parser α} (h : Typed front n) (hn : n ≤ front.length)
    (hspans : Spans (front ++ back) (space *> p) n m) (hshut : shut [':'] p = true) : False := by
  obtain ⟨k, hspace, hp⟩ := spans_skip.mp hspans
  have hws := ws_spans (le_append hn : n ≤ (front ++ back).length)
  have hleads := h.leads hn hws
  obtain rfl := hleads.ends.spans_eq (le_append (Nat.le_of_lt hleads.lt))
    (space_after_ws (le_append hn) hws hspace) (by decide)
  exact hleads.not_spans hshut hp

omit h hi in
theorem Typed.unclosed (h : Typed front n) (hn : n ≤ front.length) :
    read front (space *> closing ")") n = .miss := by
  by_contra hne
  obtain ⟨e, hspans⟩ := spans_of_ne_miss rfl hne
  have hwhole : Spans (front ++ []) (space *> closing ")") n e := closed_whole (by decide) hn hspans
  exact h.clash hn hwhole (by decide)

omit h hi in
theorem unclosed_before_comma (hn : n ≤ front.length)
    (h : Spans (front ++ ';' :: rest) (space *> lit ",") n m) :
    read front (space *> closing ")") n = .miss := by
  by_contra hne
  obtain ⟨e, hspans⟩ := spans_of_ne_miss rfl hne
  obtain ⟨k, hspace, hclose⟩ : ∃ k, Spans (front ++ ';' :: rest) space n k ∧
    Spans (front ++ ';' :: rest) (closing ")") k e :=
    spans_skip.mp (closed_whole (by decide) hn hspans)
  obtain ⟨k', hspace', hcomma⟩ := spans_skip.mp h
  obtain rfl := hspace.unique hspace'
  have hk := hspace.inside (le_append hn)
  have hends : Ends (front ++ ';' :: rest) [','] k := ends_of_starts (spans_lit hk hcomma).1
  exact hends.clash hk hclose (by decide)

theorem Inserted.persists_parameter : Persists front back rest (Typed front) parameter i :=
  Keeps.seq hi ((inert_identifier h.tight hi).map _).keeps fun _ _ _ hn => h.persists_hint hn

theorem Inserted.persists_parameters :
    Persists front back rest (fun n => read front (space *> closing ")") n = .miss)
      (.sepBy parameter comma) i := by
  have hcomma : ∀ j, j ≤ front.length → Typed front j →
      read (front ++ back) (comma *> parameter) j = .miss := by
    intro j hj htyped
    by_contra hne
    obtain ⟨e, hspans⟩ := spans_of_ne_miss rfl hne
    obtain ⟨m, hcomma, -⟩ := spans_skip.mp hspans
    obtain ⟨m, hcomma, -⟩ := spans_keep.mp hcomma
    exact htyped.clash hj hcomma (by decide)
  refine Carries.sepBy hi (le_append hi) (h.persists_parameter hi) (fun n _ hn => ?_) ?_ ?_
  · refine Carries.many hn rfl
      (fun j _ hj => Carries.skip_spaced (K := Typed front) hj (persists_comma hj)
        (fun m _ _ hm => h.persists_parameter hm) (by decide))
      (fun j hj htyped => ⟨hcomma j hj htyped, htyped.unclosed hj⟩) fun j _ hj _ hne => ?_
    obtain ⟨e, hspans⟩ := spans_of_ne_miss rfl hne
    obtain ⟨m, hmark, -⟩ := spans_skip.mp hspans
    obtain ⟨m, hmark, -⟩ := spans_keep.mp hmark
    exact unclosed_before_comma hj hmark
  · intro m n hm htyped hmany _
    obtain rfl := hmany.many_of_miss (hcomma m hm htyped)
    exact htyped.unclosed hm
  · intro hmiss hne
    exact absurd (((inert_identifier h.tight hi).map _).seq_misses hi rfl hmiss) hne

theorem Inserted.stable_parameterList : Stable front back rest parameterList i := by
  have hopen : Persists front back rest (Settled front) (lit "(" *> space : Parser String) i :=
    Keeps.skip hi (inert_lit hi (by decide)).keeps fun n _ _ hn => persists_space hn
  refine Carries.closed hi (Carries.skip hi hopen
    (fun n _ _ hn => h.persists_parameters hn) fun m n hm hsettled hlist hn => ?_)
  rcases spans_sepBy.mp hlist with ⟨e, hfirst, hothers⟩ | ⟨-, rfl⟩
  · have he := (hothers.bounds (hfirst.inside (le_append hm))).1
    exact absurd (Nat.le_trans he hn) (hsettled.1.not_inside (by decide) hm hfirst)
  · exact hsettled.unclosed rfl (by decide) hn

end AgentLang.Grammar
