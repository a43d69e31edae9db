import AgentLang.Proofs.Grammar.InsertQuotation

/-!
# Inserting semicolons: expressions and types

Expressions up to the place of the semicolons are the same with and without them. With them an
expression may only be longer, where a string behind it goes over the place. What the longer one goes
on with then stands behind the shorter one.
-/

namespace AgentLang.Grammar

open Verdict
open Parse.Parser (lit word)

variable {α : Type} {front back rest text : List Char} {i k m n : Nat}

/-! ### Literals -/

variable (h : Inserted front back rest) (hi : i ≤ front.length)
include h hi

theorem Inserted.stable_scalar : Stable front back rest scalar i := by
  refine Carries.call (Carries.alt (h.keeps (fun ht => firm_multilineString ht hi) rfl)
    (h.keeps (fun ht => firm_lineScalar ht hi) rfl) fun n hmiss hne _ _ _ => ?_)
  exact hne (h.noMultiline i hi hmiss)

theorem Inserted.persists_literal : Persists front back rest (Leads front ['(']) literal i := by
  have hprompt : Stable front back rest prompt i :=
    h.keeps (fun ht => (expressions ht hi).prompt) rfl
  have hvariable : Stable front back rest (Parse.Parser.choice [variableName]) i :=
    ((inert_identifier h.tight hi).keeps.map _).single
  have hscalar : Stable front back rest (Parse.Parser.choice [scalar, variableName]) i := by
    refine Carries.alt (h.stable_scalar hi) hvariable fun n hmiss hne _ hother hn => ?_
    -- A scalar that begins like a name ends where the name does.
    obtain ⟨e, hscalar, he⟩ := h.beyond (fun ht => cuts_scalar ht hi) rfl hmiss hne
    have hname : Spans (front ++ ';' :: rest) identifier i n :=
      spans_fmap.mp (spans_choice_one.mp hother)
    have := scalar_name (le_append hi) hname hscalar
    omega
  refine Carries.call (Carries.alt hprompt.carries hscalar.carries fun n _ hne _ hother hn => ?_)
  obtain ⟨e, hspans⟩ := spans_of_ne_miss rfl hne
  exact (prompt_rest (le_append hi) hspans hother).leads hn (by decide)

/-! ### Access chains -/

/-- How an operand may go on. -/
def steps : List Char := ['.', '[', '(']

theorem Inserted.stable_call : Stable front back rest call i :=
  h.keeps (fun ht => (expressions ht hi).call) rfl

theorem Inserted.persists_chainStep : Persists front back rest (Leads front ['(']) chainStep i := by
  have hmethod : Stable front back rest methodStep i :=
    h.keeps (fun ht => firm_methodStep hi fun j _ hj => (expressions ht hj).call) rfl
  have hplain : Stable front back rest (Parse.Parser.choice [propertyStep, indexStep]) i :=
    h.keeps (fun ht => firm_plainStep ht hi fun j _ hj => (expressions ht hj).item) rfl
  refine Carries.alt hmethod.carries hplain.carries fun n _ hne _ hother hn => ?_
  obtain ⟨e, hspans⟩ := spans_of_ne_miss rfl hne
  exact (method_rest (le_append hi) hspans hother).leads hn (by decide)

theorem Inserted.persists_access : Persists front back rest (Leads front steps) access i := by
  have hbase : Persists front back rest (Leads front ['(']) accessBase i := by
    refine Carries.alt ((h.stable_call hi).carries.map _)
      ((inert_identifier h.tight hi).keeps.carries.map _).single fun n _ hne _ hother hn => ?_
    obtain ⟨e, hcall⟩ := spans_of_ne_miss rfl hne
    have hname : Spans (front ++ ';' :: rest) identifier i n :=
      spans_fmap.mp (spans_choice_one.mp hother)
    exact (call_rest (le_append hi) (spans_fmap.mp hcall) hname).leads hn (by decide)
  refine Carries.call (Carries.seq hi (hbase.map _) (fun n _ _ hn => ?_) ?_)
  · refine Carries.many1 hn (le_append hn) rfl (fun j _ hj => h.persists_chainStep hj)
      (fun j hj hleads => ?_) (fun j _ hj _ hne => ?_)
    · exact ⟨hleads.ends.eq_miss (le_append hj) (by decide), hleads.mono (by decide)⟩
    · obtain ⟨e, hstep⟩ := spans_of_ne_miss rfl hne
      exact ((chain_ends (le_append hj) hstep).leads hj (by decide)).mono (by decide)
  · intro m n _ hleads hchain _
    obtain ⟨e, hstep⟩ := many1_spans hchain
    exact absurd hstep (hleads.not_spans (by decide))

/-! ### Operands -/

theorem Inserted.persists_simple : Persists front back rest (Leads front steps) simple i := by
  have hliteral : Persists front back rest (Leads front steps) literal i :=
    (h.persists_literal hi).mono fun n _ hleads => hleads.mono (by decide)
  have hrest : Persists front back rest (Leads front steps)
      (Parse.Parser.choice [callExpr, literal]) i := by
    refine Carries.alt ((h.stable_call hi).carries.map _) hliteral.single
      fun n hmiss hne _ hother hn => ?_
    rw [callExpr, read_fmap, map_eq_miss] at hmiss
    rw [callExpr, read_fmap, Ne, map_eq_miss] at hne
    obtain ⟨e, hcall, he⟩ := h.beyond (fun ht => (expressions ht hi).call) rfl hmiss hne
    have hother : Spans (front ++ ';' :: rest) (Parse.Parser.choice [literal]) i n := hother
    simp only [spans_choice_one] at hother
    rcases call_literal (le_append hi) hcall hother with rfl | hparen
    · omega
    · exact (hparen.leads hn (by decide)).mono (by decide)
  refine Carries.alt (h.persists_access hi) hrest fun n _ hne _ hother hn => ?_
  obtain ⟨e, haccess⟩ := spans_of_ne_miss rfl hne
  exact ((access_rest (le_append hi) haccess hother).leads hn (by decide)).mono (by decide)

theorem Inserted.persists_argumentBody :
    Persists front back rest (Leads front steps) argumentBody i := by
  have hprompt : Stable front back rest prompt i :=
    h.keeps (fun ht => (expressions ht hi).prompt) rfl
  refine Carries.alt hprompt.carries (h.persists_simple hi) fun n hmiss hne _ hother hn => ?_
  obtain ⟨e, hspans, he⟩ := h.beyond (fun ht => (expressions ht hi).prompt) rfl hmiss hne
  rcases simple_of_prompt (le_append hi) hspans hother with rfl | ⟨hle, -⟩
  · omega
  · omega

theorem Inserted.persists_operand : Persists front back rest (Leads front steps) operand i := by
  have hobject : Stable front back rest objectExpr i :=
    h.keeps (fun ht => Cuts.map (expressions ht hi).object _) rfl
  have harray : Stable front back rest array i :=
    h.keeps (fun ht => (expressions ht hi).array) rfl
  have hnoun : ∀ {text : List Char}, i ≤ text.length →
      read text operandBody i = read text (.alt objectExpr (.alt array argumentBody)) i := by
    intro text hi
    rw [operandBody, read_noun hi, read_alt, read_alt]
  refine Carries.call (Carries.congr (hnoun (le_append hi)) (hnoun (le_append hi)) ?_)
  refine Carries.alt_of_heads ['\x7b'] (le_append hi) hobject.carries
    (Carries.alt_of_heads ['['] (le_append hi) harray.carries (h.persists_argumentBody hi) rfl
      (fun c hc => ?_) (by decide)) rfl (fun c hc => ?_) (by decide)
  · have hbody : arrayBody.begins (opens (some c) 6) (some c) = true := hc
    simpa [arrayBody] using hbody
  · have hbody : objectBody.begins (opens (some c) 6) (some c) = true := hc
    simpa [objectBody] using hbody

/-! ### Operations and values -/

theorem Inserted.persists_binary : Persists front back rest (Leads front steps) binary i := by
  refine Carries.call (Keeps.seq hi ?_ fun n _ _ hn => h.persists_operand hn)
  refine Keeps.keep hi ?_ fun n _ _ hn => (inert_ws hn).keeps
  refine Carries.seq (L := Leads front steps) hi ?_
    (fun n _ _ hn => (inert_operator hn).keeps) fun m n _ hleads hoperator _ =>
      hleads.clash hoperator (by decide)
  refine Carries.keep hi ((h.persists_operand hi).map _)
    (fun n _ _ hn => (inert_ws hn).keeps.carries) fun m n hm hleads hws _ => ?_
  obtain rfl := hleads.ends.spans_eq (le_append hm) hws (by decide)
  exact hleads

omit h hi in
theorem read_operand_value (hi : i ≤ text.length) :
    read text (.choice [prompt, access, callExpr, array, objectExpr, literal]) i =
      read text operand i := by
  rw [read_operand, operandBody]
  simp only [read_choice_cons]
  by_cases hobject : read text objectExpr i = .miss
  · rw [hobject, miss_orElse, miss_orElse]
  · have hends : Ends text ['\x7b'] i := by
      rw [objectExpr, read_fmap, map_eq_miss, read_object] at hobject
      refine ends_of_ne_miss _ hobject hi rfl fun c hc => ?_
      simpa [begins, objectBody] using hc
    rw [hends.eq_miss (p := array) hi (by decide), miss_orElse, miss_orElse]

omit h hi in
theorem binary_spans_iff :
    Spans text binary i e ↔ ∃ n, Spans text operand i n ∧ Operates text n e := by
  have hbody : Spans text binary i e ↔ Spans text binaryBody i e := by rw [Spans, Spans, read_binary]
  rw [hbody]
  simp only [binaryBody, spans_ap, spans_keep, spans_fmap, Operates]
  constructor
  · rintro ⟨k₂, ⟨k₁, ⟨k, ⟨n, hleft, hws⟩, hoperator⟩, hws'⟩, hright⟩
    exact ⟨n, hleft, k, k₁, k₂, hws, hoperator, hws', hright⟩
  · rintro ⟨n, hleft, k, k₁, k₂, hws, hoperator, hws', hright⟩
    exact ⟨k₂, ⟨k₁, ⟨k, ⟨n, hleft, hws⟩, hoperator⟩, hws'⟩, hright⟩

/-- How a value can be longer before a semicolon: it goes on where it ends, or an operation follows
only there. -/
def Longer (front back rest : List Char) (n : Nat) : Prop :=
  Leads front steps n ∨
    (∃ e, Operates (front ++ ';' :: rest) n e) ∧ ∀ e, ¬Operates (front ++ back) n e

theorem Inserted.persists_value : Persists front back rest (Longer front back rest) value i := by
  have hoperand : Persists front back rest (Leads front steps)
      (Parse.Parser.choice [prompt, access, callExpr, array, objectExpr, literal]) i :=
    Carries.congr (read_operand_value (le_append hi)) (read_operand_value (le_append hi))
      (h.persists_operand hi)
  have hleft : ∀ {text : List Char} {n}, i ≤ text.length → Spans text
      (.choice [prompt, access, callExpr, array, objectExpr, literal]) i n → Spans text operand i n := by
    rintro text n hi ⟨v, hread⟩
    exact ⟨v, (read_operand_value hi).symm.trans hread⟩
  refine Carries.call (Carries.alt ((h.persists_binary hi).mono fun _ _ => .inl)
    (hoperand.mono fun _ _ => .inl) fun n hmiss hne hsource htarget _ => .inr ⟨?_, fun e hoperates => ?_⟩)
  · obtain ⟨e, hbinary⟩ := spans_of_ne_miss rfl hne
    obtain ⟨m, hoperand, hoperates⟩ := binary_spans_iff.mp hbinary
    obtain rfl := hoperand.unique (hleft (le_append hi) htarget)
    exact ⟨e, hoperates⟩
  · exact (binary_spans_iff.mpr ⟨n, hleft (le_append hi) hsource, hoperates⟩).ne_miss hmiss

/-! ### Types -/

theorem Inserted.stable_type : Stable front back rest type i := by
  have hbase : Stable front back rest baseType i :=
    h.keeps (fun ht => firm_baseType ht hi fun j _ hj => cuts_type ht hj) rfl
  refine Carries.call (Keeps.seq hi (hbase.carries.map _) fun n _ _ hn => ?_)
  exact Carries.many hn rfl (fun j _ hj => (inert_lit hj (by decide)).keeps)
    (fun _ _ => False.elim) fun j _ hj hmiss hne => hne ((inert_lit hj (by decide)).misses hmiss)

/-- Behind blanks a colon follows. -/
def Typed (front : List Char) (n : Nat) : Prop :=
  ∃ k, Spans front ws n k ∧ Leads front [':'] k

omit h hi in
theorem typed_of_colon (hn : n ≤ front.length) (hws : Spans (front ++ ';' :: rest) ws n k)
    (hcolon : Spans (front ++ ';' :: rest) (lit ":") k m) : Typed front n := by
  obtain ⟨v, hread⟩ := hws
  have hk : k ≤ front.length := read_stays rfl hn hread
  have hends : Ends (front ++ ';' :: rest) [':'] k :=
    ends_of_starts (spans_lit (le_append hk) hcolon).1
  exact ⟨k, ⟨v, (cuts_ws hn).eq_ok hread hk⟩, hends.leads hk (by decide)⟩

omit h hi in
theorem Typed.leads (h : Typed front n) (hn : n ≤ front.length)
    (hws : Spans (front ++ back) ws n k) : Leads front [':'] k := by
  obtain ⟨k', hws', c, hcolon, hc⟩ := h
  rcases hws'.of_whole (cuts_ws hn) rfl with hwhole | hends
  · obtain rfl := hws.unique hwhole
    exact ⟨c, hcolon, hc⟩
  · cases hends c hc

theorem Inserted.persists_hint : Persists front back rest (Typed front) hint i := by
  have hcolon : Stable front back rest (ws *> lit ":" : Parser String) i :=
    Keeps.skip hi (inert_ws hi).keeps fun n _ _ hn => (inert_lit hn (by decide)).keeps
  have hblanks : Stable front back rest (ws *> lit ":" *> ws : Parser String) i :=
    Keeps.skip hi hcolon fun n _ _ hn => (inert_ws hn).keeps
  refine Carries.optional (Keeps.skip hi hblanks
    fun n _ _ hn => (h.stable_type hn).carries) fun _ hne => ?_
  obtain ⟨e, hspans⟩ := spans_of_ne_miss rfl hne
  simp only [spans_skip] at hspans
  obtain ⟨_, ⟨_, ⟨k, hws, hmark⟩, -⟩, -⟩ := hspans
  exact typed_of_colon hi hws hmark

end AgentLang.Grammar
