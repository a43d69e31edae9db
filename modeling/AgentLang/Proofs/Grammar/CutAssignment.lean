import AgentLang.Proofs.Grammar.CutBlock

/-!
# Cutting assignments and selections

Blocks may be assigned, also in the arms of a selection. Where the beginning of a text holds the
opening of a block, the rest of the text decides whether the block is one; so an assignment is the
same in both only if no brace follows it.
-/

namespace AgentLang.Grammar

open Verdict
open Parse (Pattern)
open Parse.Parser (lit word)

variable {α β : Type} {front back : List Char} {i k m n : Nat}

/-! ### Bodies -/

/-- All statements behind the place follow from the whole text. -/
def Later (front back : List Char) (i : Nat) : Prop :=
  ∀ j, i < j → j ≤ front.length → StatementFollows front back j

theorem Later.mono (h : Later front back i) (hin : i ≤ n) : Later front back n :=
  fun j hj => h j (Nat.lt_of_le_of_lt hin hj)

variable (ht : Tight front back) (hi : i ≤ front.length)
include ht hi

omit ht in
theorem follows_body (hlater : Later front back i) : Follows front back body i :=
  Follows.items hi ((firm_lit hi _).follows.map _) fun j _ hlt hj => hlater j (hlt rfl) hj

omit ht in
theorem follows_block {γ : Type} {f : α → List Node → γ} {p : Parser α}
    (hp : Follows front back p i) (hlater : Later front back i) :
    Follows front back (f <$> p <* ws <*> body) i := by
  have hhead : Follows front back (f <$> p <* ws : Parser (List Node → γ)) i :=
    Keeps.keep hi (hp.map f) fun n _ _ hn => (cuts_ws hn).follows
  exact Keeps.seq hi hhead fun n hin _ hn => follows_body hn (hlater.mono hin)

theorem follows_messageThread (hlater : Later front back i) : Follows front back messageThread i :=
  follows_block hi (inside_threadWord ht hi).firm.follows hlater

theorem follows_timeBlock (hlater : Later front back i) : Follows front back timeBlock i :=
  follows_block hi (inside_timeWord ht hi).firm.follows hlater

theorem follows_whileLoop (hlater : Later front back i) : Follows front back whileLoop i :=
  follows_block hi (firm_conditional ht hi (by decide)).follows hlater

/-! ### Assignments -/

/-- An assignment up to what is assigned. -/
def assignmentHead : Parser (Node → Node) :=
  .assign <$> identifier <*> hint <* ws <* lit "=" <* .notFollowedBy (lit "=") "'='" <* ws

/-- What may be assigned. -/
def assigned : Parser Node :=
  .choice [messageThread, timeBlock, .expr <$> value]

omit ht hi in
theorem Tight.firm_after_lit {literal : String} (ht : Tight front back)
    (hliteral : literal.toList = [c]) (hc : c ∉ ended) (hk : k ≤ front.length)
    (hlit : Spans (front ++ back) (lit literal) k n) (hn : n ≤ front.length)
    (hp : Firm front back p n) (hopen : harmless p = true) (hshut : shut stops p = true)
    (hsingle : ∀ v m, read (front ++ back) p n = .ok v m → m = n + 1) :
    Firm front back (.notFollowedBy p name) n := by
  obtain ⟨rfl, rest, hrest⟩ := drop_of_lit hliteral (le_append hk) hlit
  refine ht.firm_guard hn ?_ hc hp hopen hshut hsingle
  rw [drop_whole hk] at hrest
  cases hfront : front.drop k with
  | nil =>
    have hle := List.drop_eq_nil_iff.mp hfront
    omega
  | cons d others =>
    rw [hfront] at hrest
    rw [(List.cons.inj hrest).1]
    rfl

theorem cuts_assignmentHead : Cuts front back (Ends front []) assignmentHead i := by
  refine Firm.keep_ws hi (Cuts.seq_after hi (Cuts.map (K := fun _ => False) ?_ _)
    (fun n hspans hn => ?_) (fun _ _ => False.elim))
  · refine Cuts.keep hi (L := fun n => read front (lit "=") n = .miss) ?_
      (fun n _ _ hn => firm_lit hn _) (fun n hn hmiss => .inl hmiss)
    refine Cuts.keep hi (Firm.seq hi (Cuts.map (firm_identifier ht hi) _)
      fun n _ _ hn => cuts_hint ht hn) (fun n _ _ hn => ?_) fun n hn hmiss => ?_
    · exact (cuts_ws hn).mono fun m hm hends => hends.eq_miss hm (by decide)
    · -- Behind the blanks there is no equals sign.
      obtain ⟨v, hblanks⟩ := ws_spans hn
      rw [read_skip, hblanks] at hmiss
      exact .inr ⟨fun m hm => read_certain rfl hm, v, _, hblanks, hmiss⟩
  · obtain ⟨k, hbefore, hlit⟩ := spans_keep.mp (spans_fmap.mp hspans)
    have hk : k ≤ n := (hlit.bounds (hbefore.inside (le_append hi))).1
    refine ht.firm_after_lit rfl (by decide) (Nat.le_trans hk hn) hlit hn (firm_lit hn _) rfl
      (by decide) fun v m hok => ?_
    exact (spans_lit (le_append hn) ⟨v, hok⟩).2

theorem assigned_misses (h : read (front ++ back) assigned i = .miss) :
    read front assigned i = .miss := by
  simp only [assigned, read_choice_cons, read_choice_nil, orElse_eq_miss, and_true, read_fmap,
    map_eq_miss] at h ⊢
  obtain ⟨-, -, hvalue⟩ := h
  refine ⟨?_, ?_, (expressions ht hi).value.eq_miss hvalue⟩
  · by_contra hne
    obtain ⟨m, _, _, hword, -, -⟩ := thread_opens ht hi hne
    exact value_of_name (threadWord_name (le_append hi) hword) hvalue
  · by_contra hne
    obtain ⟨m, _, _, hword, -, -⟩ := time_opens ht hi hne
    exact value_of_name (timeWord_name (le_append hi) hword) hvalue

theorem assignment_misses (h : read (front ++ back) assignment i = .miss) :
    read front assignment i = .miss :=
  Cuts.seq_miss hi (cuts_assignmentHead ht hi) (fun _ _ hn hmiss => assigned_misses ht hn hmiss)
    (fun _ hn hends => hends.eq_miss hn (by decide)) h

/-- No brace follows on the same line. -/
def Unbraced (text : List Char) (n : Nat) : Prop :=
  read text (ws *> lit "\x7b") n = .miss

omit ht hi

theorem unbraced_of_end (hn : n ≤ text.length) (hend : Spans text statementEnd n e) :
    Unbraced text n := by
  by_contra hne
  obtain ⟨_, hspans⟩ := spans_of_ne_miss rfl hne
  obtain ⟨k, hws, hbrace⟩ := spans_skip.mp hspans
  have hk := hws.inside hn
  exact (statementEnd_ends hn hws hend).clash hk hbrace (by decide)

theorem Block.not_unbraced (h : Block text heads i m) (hi : i ≤ text.length)
    (hprompt : shut heads prompt = true) (hws : Spans text ws m k)
    (hbrace : Spans text (lit "\x7b") k e) (hvalue : Spans text value i n) : ¬Unbraced text n := by
  intro hunbraced
  have hm := h.name.inside hi
  rcases h.value_eq hi hprompt hvalue with rfl | hcall
  · exact (spans_skip.mpr ⟨k, hws, hbrace⟩).ne_miss hunbraced
  · obtain ⟨m', hname', hparen⟩ := call_name hi hcall
    obtain rfl := h.name.unique hname'
    obtain rfl := hparen.spans_eq hm hws (by decide)
    exact hparen.clash hm hbrace (by decide)

theorem tight_nil : Tight text [] :=
  fun _ _ _ hb => nomatch hb

theorem thread_opens_here (hi : i ≤ text.length) (h : read text messageThread i ≠ .miss) :
    ∃ m k n, Spans text threadWord i m ∧ Spans text ws m k ∧ Spans text (lit "\x7b") k n := by
  have hopens := thread_opens tight_nil hi h
  rwa [List.append_nil] at hopens

theorem time_opens_here (hi : i ≤ text.length) (h : read text timeBlock i ≠ .miss) :
    ∃ m k n, Spans text timeWord i m ∧ Spans text ws m k ∧ Spans text (lit "\x7b") k n := by
  have hopens := time_opens tight_nil hi h
  rwa [List.append_nil] at hopens

/-- What is assigned is the same where no brace follows it, so that no block begins with it. -/
theorem assigned_carried (hi : i ≤ target.length)
    (hthread : Keeps front back target messageThread i)
    (htime : Keeps front back target timeBlock i) (h : read (front ++ back) assigned i = .ok v n)
    (hn : n ≤ front.length)
    (hvalue : read (front ++ back) (Node.expr <$> value) i = .ok v n →
      read target (Node.expr <$> value) i = .ok v n)
    (hunbraced : Unbraced target n) : read target assigned i = .ok v n := by
  have hspans : Spans target (.choice [Node.expr <$> value]) i n → Spans target value i n := by
    intro hspans
    obtain ⟨p, hp, hspans⟩ := choice_spans hspans
    rw [List.mem_singleton.mp hp] at hspans
    exact spans_fmap.mp hspans
  refine choice_carried h (fun h => hthread.read h hn) (fun h => ?_) fun _ _ hrest => ?_
  · refine choice_carried h (fun h => htime.read h hn) (fun h => choice_last h hvalue)
      fun _ _ hrest => ?_
    by_contra hne
    obtain ⟨m, k, _, hword, hws, hbrace⟩ := time_opens_here hi hne
    exact (time_block hi hword hws hbrace).not_unbraced hi (by decide) hws hbrace (hspans hrest)
      hunbraced
  · by_contra hne
    obtain ⟨m, k, _, hword, hws, hbrace⟩ := thread_opens_here hi hne
    rcases spans_choice_cons.mp hrest with htime | ⟨-, hrest⟩
    · exact not_timeBlock hi hword htime
    · exact (thread_block hi hword hws hbrace).not_unbraced hi (by decide) hws hbrace (hspans hrest)
        hunbraced

theorem Unbraced.of_whole (h : Unbraced (front ++ back) n) (hn : n ≤ front.length) :
    Unbraced front n :=
  (Cuts.skip_shut hn (cuts_ws hn) (by decide) fun _ _ _ hm => firm_lit hm "\x7b").eq_miss h

include ht hi

theorem assignment_of_whole (hlater : Later front back i)
    (h : read (front ++ back) assignment i = .ok v n) (hn : n ≤ front.length)
    (hunbraced : Unbraced (front ++ back) n) : read front assignment i = .ok v n :=
  seq_carried (p := assignmentHead) hi (cuts_assignmentHead ht hi).follows h hn
    fun _ _ him _ hm hassigned =>
      assigned_carried hm (follows_messageThread ht hm (hlater.mono him))
        (follows_timeBlock ht hm (hlater.mono him)) hassigned hn
        (fun h => (Cuts.map (expressions ht hm).value Node.expr).eq_ok h hn) (hunbraced.of_whole hn)

/-! ### Selections -/

theorem firm_defaultCase : Firm front back defaultCase i := by
  refine Cuts.seq_after hi (Cuts.map (firm_lit hi "_") _) (fun n hspans hn => ?_)
    (fun _ _ => False.elim)
  refine ht.firm_after_lit rfl (by decide) hi (spans_fmap.mp hspans) hn (firm_one hn _ _) rfl
    (by decide) fun v m hok => ?_
  exact read_one_ok (le_append hn) hok

theorem agrees_caseValue : Agrees front back caseValue i := by
  refine Mirrors.choice ?_
  simp only [List.forall_mem_cons, List.not_mem_nil, false_imp_iff, implies_true, and_true]
  exact ⟨(firm_defaultCase ht hi).agrees, (Cuts.map (expressions ht hi).access some).agrees,
    (Cuts.map (expressions ht hi).literal some).agrees⟩

theorem armBody_of_whole (hlater : Later front back i)
    (h : read (front ++ back) armBody i = .ok v n) (hn : n ≤ front.length)
    (hunbraced : Unbraced (front ++ back) n) : read front armBody i = .ok v n := by
  rw [read_armBody] at h ⊢
  refine (cuts_returnStatement ht hi).agrees.choice_carried hn h fun h => ?_
  refine (firm_goto ht hi).agrees.choice_carried hn h fun h => ?_
  refine choice_carried h (fun h => assignment_of_whole ht hi hlater h hn hunbraced) (fun h => ?_)
    fun hmiss _ _ => assignment_misses ht hi hmiss
  exact choice_last h fun h => (Cuts.map (expressions ht hi).value Node.expr).eq_ok h hn

/-- An arm up to its body. -/
def armHead : Parser (Node → Arm) :=
  .arm <$> caseValue <* ws <* lit "=>" <* ws

/-- What ends an arm. -/
def armEnd : Parser String :=
  .token (.star (Shape.among " \t") ++ .opt (Shape.among ";,")) "';'"

theorem follows_armHead : Follows front back armHead i := by
  refine Keeps.keep hi ?_ fun n _ _ hn => (cuts_ws hn).follows
  refine Keeps.keep hi ?_ fun n _ _ hn => (firm_lit hn _).follows
  exact Keeps.keep hi ((agrees_caseValue ht hi).keeps.map _) fun n _ _ hn => (cuts_ws hn).follows

omit ht in
theorem cuts_armEnd : Cuts front back (Ends front []) armEnd i := by
  refine cuts_token_seq hi (cuts_star_one hi) (fun n _ hn => ?_) fun n hn hends => ?_
  · exact cuts_token_opt hn (firm_one hn _ _).cuts fun v m hok hm =>
      ends_of_le (by have := read_one_ok (le_append hn) hok; omega)
  · exact hends.closes_still hn rfl (by decide) hends

/-- What stands between the braces of a selection. -/
def armItem : Parser Arm :=
  blank *> .choice [.comment <$> commentText, arm]

/-- What follows an arm: another one up to the last place, or the end of the selection. -/
def ArmEnds (text : List Char) (last n : Nat) : Prop :=
  (∃ e, Spans text (space *> closing "\x7d") n e) ∨ ∃ e, e ≤ last ∧ Spans text armItem n e

/-- Whether none of the characters may stand behind an arm, or behind what it does. -/
def barred (heads : List Char) : Bool :=
  still heads (.token (.opt (Shape.among ";,")) "';'" : Parser String) && still heads blank &&
    still heads space && shut heads (closing "\x7d") &&
    shut heads (.choice [Arm.comment <$> commentText, arm])

omit ht hi in
theorem ArmEnds.not_ends (h : ArmEnds text last m) (hn : n ≤ text.length)
    (hend : Spans text armEnd n m) (hws : Spans text ws n k) (hheads : barred heads = true) :
    ¬Ends text heads k := by
  intro hends
  have hk := hws.inside hn
  simp only [barred, Bool.and_eq_true] at hheads
  obtain ⟨⟨⟨⟨hmark, hblank⟩, hspace⟩, hclosing⟩, harm⟩ := hheads
  obtain ⟨k', hblanks, hmarked⟩ := (spans_token_seq hn).mp hend
  obtain rfl := hws.unique (spans_token_name hn hblanks)
  obtain rfl := hends.spans_eq hk hmarked hmark
  rcases h with ⟨e, hclosed⟩ | ⟨e, -, hitem⟩
  · obtain ⟨k', hspans, hclose⟩ := spans_skip.mp hclosed
    obtain rfl := hends.spans_eq hk hspans hspace
    exact hends.clash hk hclose hclosing
  · obtain ⟨k', hspans, hchoice⟩ := spans_skip.mp hitem
    obtain rfl := hends.spans_eq hk hspans hblank
    exact hends.clash hk hchoice harm

omit ht hi in
theorem ArmEnds.unbraced (h : ArmEnds text last m) (hn : n ≤ text.length)
    (hend : Spans text armEnd n m) : Unbraced text n := by
  by_contra hne
  obtain ⟨_, hspans⟩ := spans_of_ne_miss rfl hne
  obtain ⟨k, hws, hbrace⟩ := spans_skip.mp hspans
  have hends : Ends text ['\x7b'] k := ends_of_starts (spans_lit (hws.inside hn) hbrace).1
  exact h.not_ends hn hend hws (by decide) hends

theorem arm_of_whole (hlater : Later front back i) (h : read (front ++ back) arm i = .ok v n)
    (hn : n ≤ front.length) (hends : ArmEnds (front ++ back) last n) :
    read front arm i = .ok v n := by
  refine keep_carried (p := .seq armHead armBody) (q := armEnd) hi h hn fun e hie he hseq hend => ?_
  refine ⟨seq_carried hi (follows_armHead ht hi) hseq he fun u m him _ hm hbody => ?_,
    (cuts_armEnd he).follows.spans hend hn⟩
  exact armBody_of_whole ht hm (hlater.mono him) hbody he (hends.unbraced (le_append he) hend)

theorem armItem_of_whole (hlater : Later front back i)
    (h : read (front ++ back) armItem i = .ok v n) (hn : n ≤ front.length)
    (hends : ArmEnds (front ++ back) last n) : read front armItem i = .ok v n := by
  have hblank : Follows front back blank i := (cuts_star_one hi).follows
  refine skip_carried hi hblank h hn fun u k hik _ hk hchoice => ?_
  refine (Cuts.map (cuts_commentText hk) Arm.comment).agrees.choice_carried hn hchoice fun h => ?_
  exact choice_last h fun h => arm_of_whole ht hk (hlater.mono hik) h hn hends

omit ht hi in
/-- Where a selection is closed, the blanks before it lead to a comment or to the closing mark. -/
theorem ends_of_closed (hi : i ≤ text.length) (hclosed : Spans text (space *> closing "\x7d") i n)
    (hblank : Spans text blank i m) : Ends text ['/', ',', '\x7d'] m := by
  obtain ⟨k, hspace, hclose⟩ := spans_skip.mp hclosed
  have hm := hblank.inside hi
  have hrest : Spans text (space *> closing "\x7d") m n :=
    spans_skip.mpr ⟨k, space_after_blank hi hblank hspace, hclose⟩
  intro c hc
  have hfree := not_free_of_blank hi hblank hc
  by_contra hmem
  refine hrest.ne_miss (unclosed_of_heads rfl hm fun d hd hseparator => ?_)
  obtain rfl : d = c := Option.some.inj (hd.symm.trans hc)
  have hcases : d ∈ " \t\r\n".toList ++ ['/', ',', '\x7d'] := hseparator
  rcases List.mem_append.mp hcases with hblank | hmark
  · cases hfree.symm.trans (List.contains_iff_mem.mpr hblank)
  · exact hmem hmark

omit ht hi in
theorem Spans.whole_blank (hclosed : Spans front (space *> closing "\x7d") i n)
    (hi : i ≤ front.length) (m : Nat) (hblank : Spans front blank i m) :
    Spans (front ++ back) blank i m := by
  obtain ⟨k, hspace, hclose⟩ := spans_skip.mp hclosed
  have hrest : Spans front (space *> closing "\x7d") m n :=
    spans_skip.mpr ⟨k, space_after_blank hi hblank hspace, hclose⟩
  refine (hblank.of_whole (cuts_star_one hi) rfl).resolve_right fun hends => ?_
  exact hends.clash (hblank.inside hi) hrest (by decide)

omit ht in
theorem armItem_misses_at_end (hi' : i ≤ target.length) (h : read (front ++ back) armItem i = .miss)
    (hclosed : Spans front (space *> closing "\x7d") i n)
    (hclosed' : Spans target (space *> closing "\x7d") i n)
    (hblank : ∀ m, Spans front blank i m → Spans target blank i m)
    (hcomment : ∀ m, m ≤ front.length → read (front ++ back) commentText m = .miss →
      read target commentText m = .miss) :
    read target armItem i = .miss := by
  obtain ⟨m, hfront⟩ : ∃ m, Spans front blank i m := ⟨_, blank_spans hi⟩
  have hends := ends_of_closed hi' hclosed' (hblank m hfront)
  have hm := hfront.inside hi
  have hm' := ((hblank m hfront).bounds hi').2.1
  obtain ⟨u, hsource⟩ : Spans (front ++ back) blank i m := hclosed.whole_blank hi m hfront
  obtain ⟨v, htarget⟩ := hblank m hfront
  rw [armItem, read_skip] at h ⊢
  rw [hsource] at h
  rw [htarget]
  dsimp only [Verdict.bind] at h ⊢
  simp only [read_choice_cons, read_choice_nil, orElse_eq_miss, and_true, read_fmap,
    map_eq_miss] at h ⊢
  exact ⟨hcomment m hm h.1, hends.eq_miss hm' (by decide)⟩

theorem follows_selection (hlater : Later front back i) : Follows front back selection i := by
  have hhead : Follows front back (Node.select <$> conditional "match" <* ws <* lit "\x7b" :
      Parser (List Arm → Node)) i := by
    refine Keeps.keep hi ?_ fun n _ _ hn => (firm_lit hn _).follows
    refine Keeps.keep hi ?_ fun n _ _ hn => (cuts_ws hn).follows
    exact (firm_conditional ht hi (by decide)).follows.map _
  refine Carries.braced hi hhead (fun e n he hn hclosed => (follows_closed _ he).spans hclosed hn)
    fun j arms e n hij _ hj he hn hread hwhole => ⟨?_, id⟩
  obtain ⟨hchain, hmiss⟩ := chain_of_many (le_append hj) rfl hread
  have hclosed := (follows_closed _ he).spans hwhole hn
  refine (hchain.carried (ArmEnds (front ++ back) front.length) (le_append hj) he
    (fun j' v n' hj' hle hok hn' hnext => ?_) (.inl ⟨n, hwhole⟩)).1.many hj rfl
    (armItem_misses_at_end he he hmiss hclosed hclosed (fun _ => id)
      fun m hm => (cuts_commentText hm).eq_miss)
  exact ⟨armItem_of_whole ht hle (hlater.mono (Nat.le_trans hij hj')) hok hn' hnext,
    .inr ⟨n', hn', v, hok⟩⟩

end AgentLang.Grammar
