import AgentLang.Proofs.Grammar.Cut

/-!
# Cutting lexemes

Terminals, blanks, names and numbers in a text and in a beginning of it. Only where a word or a mark
depends on what follows, the text must not be cut in its middle.
-/

namespace AgentLang.Grammar

open List
open Verdict
open Parse (Pattern)

variable {α : Type} {front back literal word : List Char} {K : Nat → Prop} {i n : Nat}

/-! ### Terminals -/

section

variable (hi : i ≤ front.length)
include hi

theorem drop_whole : (front ++ back).drop i = front.drop i ++ back :=
  drop_append_of_le_length hi

theorem prefix_length (h : literal.isPrefixOf (front.drop i) = true) :
    i + literal.length ≤ front.length := by
  have hle := (List.isPrefixOf_iff_prefix.mp h).length_le
  rw [length_drop] at hle
  omega

omit hi in
theorem prefix_whole_iff (h : literal.length ≤ rest.length) :
    literal.isPrefixOf (rest ++ back) = true ↔ literal.isPrefixOf rest = true := by
  simp only [List.isPrefixOf_iff_prefix]
  constructor
  · exact fun hwhole => prefix_of_prefix_length_le hwhole (prefix_append rest back) h
  · exact fun hbegin => hbegin.trans (prefix_append rest back)

theorem firm_text (literal : List Char) (name : String) :
    Firm front back (.text literal name) i := by
  unfold Firm Cuts
  rw [read_text (le_append hi), read_text hi, drop_whole hi]
  refine Cut.of_iff (fun hle => ?_) (fun hlt hbegin => ?_)
  · exact prefix_whole_iff (by rw [length_drop]; omega)
  · have := prefix_length hi hbegin
    omega

omit hi in
theorem read_text_ok (hi : i ≤ text.length) (h : read text (.text literal name) i = .ok v n) :
    literal.isPrefixOf (text.drop i) = true ∧ n = i + literal.length := by
  rw [read_text hi] at h
  split at h
  next hstarts =>
    cases h
    exact ⟨hstarts, rfl⟩
  next => cases h

omit hi in
theorem ends_of_starts (h : (c :: rest).isPrefixOf (text.drop i) = true) : Ends text [c] i := by
  obtain ⟨tail, htail⟩ := isPrefixOf_iff_prefix.mp h
  intro d hd
  rw [← htail] at hd
  cases hd
  exact mem_cons_self

theorem ends_of_text (h : read (front ++ back) (.text literal name) i = .ok v n)
    (hn : front.length < n) (hliteral : literal.length = 1) : Ends front [] i := by
  have := (read_text_ok (le_append hi) h).2
  exact ends_of_le (by omega)

theorem firm_one (accepts : Char → Bool) (name : String) :
    Firm front back (.token (.one accepts) name) i := by
  unfold Firm Cuts
  rw [read_token (le_append hi), read_token hi, drop_whole hi]
  cases hrest : front.drop i with
  | nil =>
    have hend : front.length ≤ i := drop_eq_nil_iff.mp hrest
    refine Cut.of_beyond fun v n hok => ?_
    split at hok
    next taken hmatch =>
      cases hok
      have := Pattern.match?_pos rfl hmatch
      omega
    next => cases hok
  | cons c rest =>
    have hlen := congrArg List.length hrest
    rw [length_drop, length_cons] at hlen
    by_cases hc : accepts c = true
    · simp only [Pattern.match?, cons_append, hc, if_true, take_succ_cons,
        take_zero]
      exact .same (by omega)
    · simp only [Pattern.match?, cons_append, hc]
      exact .miss

omit hi in
theorem upToEndOf?_eq_some_iff (hliteral : literal ≠ []) :
    Pattern.upToEndOf? literal rest = some k ↔
      Pattern.upToEndOf? literal (rest ++ back) = some k ∧ k ≤ rest.length := by
  have hpos : 0 < literal.length := length_pos_iff.mpr hliteral
  have hlonger : ∀ {text : List Char} {k : Nat}, Pattern.upToEndOf? literal text = some k →
      literal.length ≤ k ∧ k ≤ text.length := by
    intro text k h
    obtain ⟨hk, before, htake⟩ := Pattern.upToEndOf?_spec h
    have hlength := congrArg List.length htake
    rw [length_take, length_append] at hlength
    omega
  have hshorter : ∀ {rest : List Char} {k : Nat}, rest.length < literal.length →
      (Pattern.upToEndOf? literal rest = some k ↔
        Pattern.upToEndOf? literal (rest ++ back) = some k ∧ k ≤ rest.length) := by
    intro rest k hlt
    constructor
    · intro h
      have := hlonger h
      omega
    · intro h
      have := hlonger h.1
      omega
  induction rest generalizing k with
  | nil => exact hshorter hpos
  | cons c rest ih =>
    rcases Nat.lt_or_ge (c :: rest).length literal.length with hlt | hle
    · exact hshorter hlt
    · have hiff : literal.isPrefixOf (c :: (rest ++ back)) = true ↔
          literal.isPrefixOf (c :: rest) = true := prefix_whole_iff hle
      rw [length_cons] at hle
      rw [cons_append, Pattern.upToEndOf?, Pattern.upToEndOf?, length_cons]
      by_cases hstarts : literal.isPrefixOf (c :: rest) = true
      · rw [if_pos hstarts, if_pos (hiff.mpr hstarts), Option.some.injEq]
        omega
      · rw [if_neg hstarts, if_neg (hiff.not.mpr hstarts), Option.map_eq_some_iff,
          Option.map_eq_some_iff]
        constructor
        · rintro ⟨k, hk, rfl⟩
          obtain ⟨hk', hle⟩ := ih.mp hk
          exact ⟨⟨k, hk', rfl⟩, by omega⟩
        · rintro ⟨⟨k, hk, rfl⟩, hle⟩
          exact ⟨k, ih.mpr ⟨hk, by omega⟩, rfl⟩

theorem firm_through (hliteral : literal ≠ []) (name : String) :
    Firm front back (.token (.through literal) name) i := by
  unfold Firm Cuts
  rw [read_token (le_append hi), read_token hi, drop_whole hi, Pattern.match?, Pattern.match?]
  have hiff : ∀ k, Pattern.upToEndOf? literal (front.drop i) = some k ↔
      Pattern.upToEndOf? literal (front.drop i ++ back) = some k ∧ k ≤ (front.drop i).length :=
    fun k => upToEndOf?_eq_some_iff hliteral
  cases hbegin : Pattern.upToEndOf? literal (front.drop i) with
  | some k =>
    obtain ⟨hwhole, hk⟩ := (hiff k).mp hbegin
    rw [hwhole]
    dsimp only
    rw [take_append_of_le_length hk]
    rw [length_drop] at hk
    exact .same (by omega)
  | none =>
    refine Cut.of_beyond fun v n hok => ?_
    split at hok
    next k hwhole =>
      cases hok
      by_contra hlt
      have hk : k ≤ (front.drop i).length := by
        rw [length_drop]
        omega
      cases hbegin.symm.trans ((hiff k).mpr ⟨hwhole, hk⟩)
    next => cases hok

end

/-! ### Tokens of several parts -/

section

variable {first second item : Pattern} {name : String}

theorem Cuts.congr (h : ∀ text : List Char, i ≤ text.length → read text p i = read text q i)
    (hi : i ≤ front.length) (hq : Cuts front back K q i) : Cuts front back K p i := by
  unfold Cuts
  rw [h _ (le_append hi), h front hi]
  exact hq

variable (hi : i ≤ front.length)
include hi

theorem firm_exactly : Firm front back (.token (.exactly literal) name) i :=
  Cuts.congr (fun _ => read_token_exactly) hi (firm_text hi literal name)

theorem cuts_token_seq (hfirst : Cuts front back L (.token first name) i)
    (hsecond : ∀ n, i ≤ n → n ≤ front.length → Cuts front back K (.token second name) n)
    (hshort : ∀ n, n ≤ front.length → L n →
      Closes front back K (.token second name : Parser String) n) :
    Cuts front back K (.token (first ++ second) name) i :=
  Cuts.congr (fun _ => read_token_seq) hi
    (Cuts.seq hi (hfirst.map _) (fun n hle _ hn => hsecond n hle hn) hshort)

theorem cuts_token_alt (hfirst : Cuts front back K (.token first name) i)
    (hsecond : Cuts front back K (.token second name) i)
    (hboth : ∀ v n v' n', read (front ++ back) (.token first name) i = .ok v n →
      front.length < n → read (front ++ back) (.token second name) i = .ok v' n' →
      n' ≤ front.length → K n') :
    Cuts front back K (.token (first <|> second) name) i := by
  refine Cuts.congr (fun _ => read_token_alt) hi (Cuts.alt hfirst hsecond ?_ hboth)
  rw [read_token (le_append hi)]
  split <;> exact nofun

theorem cuts_token_star (hmany : Cuts front back K (.many (.token item name)) i) :
    Cuts front back K (.token (.star item) name) i :=
  Cuts.congr (fun _ => read_token_star) hi (hmany.map _)

theorem cuts_token_plus (hitem : Cuts front back L (.token item name) i)
    (hmany : ∀ n, i ≤ n → n ≤ front.length → Cuts front back K (.many (.token item name)) n)
    (hshort : ∀ n, n ≤ front.length → L n → read front (.token item name) n = .miss ∧ K n) :
    Cuts front back K (.token (.plus item) name) i := by
  refine cuts_token_seq hi hitem (fun n hle hn => cuts_token_star hn (hmany n hle hn)) ?_
  intro n hn hK
  obtain ⟨hmiss, hK'⟩ := hshort n hn hK
  refine .inr ⟨fun m hm => ?_, joined [], n, ?_, hK'⟩
  · rw [read_token_star hm, read_map, Ne, map_eq_miss]
    exact read_many_ne_miss hm
  · rw [read_token_star hn, read_map, read_many, hmiss]
    rfl

end

/-! ### Words and marks that depend on what follows -/

/-- What the text ends with behind a line, a comment or a statement with semicolons. -/
def ended : List Char := ['\n', '/', ';', ' ', '\t']

/-- What may follow a statement. -/
def stops : List Char := [' ', '\t', ';', '\n', '\r', '\x7d', '/']

/-- Where the text is cut, a statement, a comment or a line has just ended, or what follows ends a
statement. -/
def Tight (front back : List Char) : Prop :=
  ∀ a b, front.getLast? = some a → back.head? = some b →
    a ∈ ended ∨ b ∈ stops

theorem getLast?_of_drop (h : front.drop i = rest) (hrest : rest ≠ []) :
    front.getLast? = rest.getLast? := by
  rw [← take_append_drop i front, h, List.getLast?_append_of_ne_nil _ hrest]

theorem Tight.word_ends (ht : Tight front back) (hne : word ≠ [])
    (hword : word.all Char.isAlpha = true) (hlast : front.drop i = word) :
    back.head?.any Parse.Engine.isWordChar = false := by
  cases hback : back.head? with
  | none => rfl
  | some b =>
    have ha : front.getLast? = some (word.getLast hne) := by
      rw [getLast?_of_drop hlast hne, List.getLast?_eq_some_getLast hne]
    have halpha : ended.any Char.isAlpha = false := by decide
    have hstops : stops.any Parse.Engine.isWordChar = false := by decide
    rcases ht _ b ha hback with ha | hb
    · have hletter := all_eq_true.mp hword _ (getLast_mem hne)
      exact absurd hletter (any_eq_false.mp halpha _ ha)
    · exact Bool.eq_false_iff.mpr (any_eq_false.mp hstops b hb)

variable (ht : Tight front back) (hi : i ≤ front.length)
include ht hi

theorem firm_keyword (hne : word ≠ []) (hword : word.all Char.isAlpha = true) (name : String) :
    Firm front back (.keyword word name) i := by
  unfold Firm Cuts
  rw [read_keyword (le_append hi), read_keyword hi, drop_whole hi]
  refine Cut.of_iff (fun hle => ?_) (fun hlt hbegin => ?_)
  · rw [prefix_whole_iff (by rw [length_drop]; omega)]
    refine and_congr_right fun hstarts => ?_
    obtain ⟨tail, htail⟩ := isPrefixOf_iff_prefix.mp hstarts
    rw [← htail, append_assoc, drop_left, drop_left]
    cases tail with
    | nil =>
      rw [append_nil] at htail
      exact iff_of_true (ht.word_ends hne hword htail.symm) rfl
    | cons c tail => rfl
  · have := prefix_length hi hbegin.1
    omega

omit ht hi in
/-- What depends on the rest of the text behind a mark ends or goes on where no text is cut. -/
theorem Tight.literal_fits {tail : List Char} (ht : Tight front back)
    (hlast : front.drop i = mark :: tail) (hmark : mark ∉ ended)
    (hliteral : literal.any (ended ++ stops).contains = false)
    (h : literal.isPrefixOf (tail ++ back) = true) : literal.isPrefixOf tail = true := by
  by_contra hnot
  have hlt : tail.length < literal.length := by
    by_contra hle
    exact hnot ((prefix_whole_iff (Nat.le_of_not_lt hle)).mp h)
  obtain ⟨more, rfl⟩ : tail <+: literal := prefix_of_prefix_length_le
    (prefix_append tail back) (List.isPrefixOf_iff_prefix.mp h) (Nat.le_of_lt hlt)
  cases more with
  | nil => simp at hlt
  | cons b more =>
    have hback : back.head? = some b := by
      obtain ⟨others, hothers⟩ := isPrefixOf_iff_prefix.mp h
      rw [append_assoc] at hothers
      rw [← append_cancel_left hothers]
      rfl
    have hne : mark :: tail ≠ [] := cons_ne_nil mark tail
    have ha : front.getLast? = some ((mark :: tail).getLast hne) := by
      rw [getLast?_of_drop hlast hne, List.getLast?_eq_some_getLast hne]
    have hforeign : ∀ c ∈ tail ++ b :: more, c ∉ ended ++ stops := fun c hc hmem =>
      any_eq_false.mp hliteral c hc (elem_eq_true_of_mem hmem)
    rcases ht _ b ha hback with hended | hstops
    · rcases mem_cons.mp (getLast_mem hne) with heq | hmem
      · exact hmark (heq ▸ hended)
      · exact hforeign _ (mem_append_left _ hmem) (mem_append_left _ hended)
    · exact hforeign b (by simp) (mem_append_right _ hstops)

omit ht hi in
theorem read_guarded (hi : i ≤ text.length) :
    read text (.token (.exactly [mark] ++ .unless literal) name) i =
      if [mark].isPrefixOf (text.drop i) ∧ ¬literal.isPrefixOf ((text.drop i).drop 1)
      then .ok (String.ofList [mark]) (i + 1) else .miss := by
  rw [read_token hi]
  have hseq : (.exactly [mark] ++ .unless literal : Pattern) =
    .seq (.exactly [mark]) (.unless literal) := rfl
  rw [hseq]
  cases text.drop i with
  | nil => rfl
  | cons c rest =>
    by_cases hc : mark = c
    · subst hc
      by_cases hstarts : literal <+: rest
      · simp [Pattern.match?, hstarts]
      · simp [Pattern.match?, hstarts]
    · simp [Pattern.match?, hc]

omit ht hi in
theorem read_guarded_ok (hi : i ≤ text.length)
    (h : read text (.token (.exactly [mark] ++ .unless literal) name) i = .ok v n) : n = i + 1 := by
  rw [read_guarded hi] at h
  split at h
  · cases h
    rfl
  · cases h

theorem firm_guarded (hmark : mark ∉ ended)
    (hliteral : literal.any (ended ++ stops).contains = false) (name : String) :
    Firm front back (.token (.exactly [mark] ++ .unless literal) name) i := by
  unfold Firm Cuts
  rw [read_guarded (le_append hi), read_guarded hi, drop_whole hi]
  refine Cut.of_iff (fun hle => ?_) (fun hlt hbegin => ?_)
  · rw [prefix_whole_iff (by rw [length_drop]; exact Nat.le_sub_of_add_le' hle)]
    refine and_congr_right fun hstarts => not_congr ?_
    obtain ⟨tail, htail⟩ := isPrefixOf_iff_prefix.mp hstarts
    rw [← htail]
    constructor
    · exact ht.literal_fits htail.symm hmark hliteral
    · intro hbegin
      exact isPrefixOf_iff_prefix.mpr
        ((List.isPrefixOf_iff_prefix.mp hbegin).trans (prefix_append tail back))
  · have := prefix_length hi hbegin.1
    rw [length_singleton] at this
    omega

/-! ### Repeated characters -/

omit ht hi

section

variable {accepts : Char → Bool} {name : String}

theorem read_one_ok (hi : i ≤ text.length) (h : read text (.token (.one accepts) name) i = .ok v n) :
    n = i + 1 := by
  rw [read_token hi] at h
  split at h
  next taken hmatch =>
    cases h
    unfold Pattern.match? at hmatch
    split at hmatch
    · cases hmatch
    · split at hmatch
      · rw [Option.some.inj hmatch]
      · cases hmatch
  next => cases h

include hi

theorem cuts_many_one : Cuts front back (Ends front []) (.many (.token (.one accepts) name)) i :=
  Cuts.many hi rfl (fun _ _ hj => firm_one hj accepts name)
    (fun j v n _ hj hok hn _ => ends_of_le (by have := read_one_ok (le_append hj) hok; omega))
    (fun _ _ => False.elim)

theorem cuts_star_one : Cuts front back (Ends front []) (.token (.star (.one accepts)) name) i :=
  cuts_token_star hi (cuts_many_one hi)

theorem cuts_plus_one : Cuts front back (Ends front []) (.token (.plus (.one accepts)) name) i :=
  cuts_token_plus hi (firm_one hi accepts name) (fun _ _ hn => cuts_many_one hn)
    (fun _ _ => False.elim)

end

/-! ### Blanks, names and numbers -/

theorem cuts_ws (hi : i ≤ front.length) : Cuts front back (Ends front []) ws i :=
  cuts_star_one hi

include ht hi

omit ht in
theorem cuts_ws1 : Cuts front back (Ends front []) ws1 i :=
  cuts_plus_one hi

/-- All characters of the words that a pattern describes are of one kind. -/
def Within (f : Char → Bool) : Pattern → Prop
  | .one accepts => ∀ c, accepts c = true → f c = true
  | .exactly literal => literal.all f = true
  | .seq first second => Within f first ∧ Within f second
  | .alt first second => Within f first ∧ Within f second
  | .star item => Within f item
  | .unless _ => True
  | .through _ => False

omit ht hi in
theorem Within.of_accepts (h : Within f shape) (haccepts : shape.Accepts word) :
    ∀ c ∈ word, f c = true := by
  induction shape generalizing word with
  | one accepts =>
    obtain ⟨d, hd, rfl⟩ := haccepts
    intro c hc
    rw [List.mem_singleton.mp hc]
    exact h d hd
  | exactly literal =>
    obtain rfl : word = literal := haccepts
    exact all_eq_true.mp h
  | seq first second ih₁ ih₂ =>
    obtain ⟨u, v, hu, hv, rfl⟩ := haccepts
    intro c hc
    exact (mem_append.mp hc).elim (ih₁ h.1 hu c) (ih₂ h.2 hv c)
  | alt first second ih₁ ih₂ => exact haccepts.elim (ih₁ h.1) (ih₂ h.2)
  | star item ih =>
    obtain ⟨parts, hparts, rfl⟩ := haccepts
    intro c hc
    obtain ⟨part, hpart, hmem⟩ := mem_flatten.mp hc
    exact ih h (hparts part hpart) c hmem
  | «unless» literal =>
    obtain rfl : word = [] := haccepts
    exact nofun
  | through literal => exact h.elim

/-- No token of characters that do not stand next to each other where the text is cut goes from the
beginning into the rest. -/
theorem Tight.token_inside (hwithin : Within f shape) (hf : (ended ++ stops).any f = false)
    (h : read (front ++ back) (.token shape name) i = .ok v n) (hn : front.length < n) :
    front.length ≤ i := by
  by_contra hlt
  rw [read_token (le_append hi), drop_whole hi] at h
  split at h
  next k hmatch =>
    cases h
    obtain ⟨hk, haccepted⟩ := Pattern.match?_accepts hmatch
    have hchars := hwithin.of_accepts haccepted
    have hlong : (front.drop i).length < k := by
      rw [length_drop]
      omega
    have hne : front.drop i ≠ [] := by
      rw [← length_pos_iff, length_drop]
      omega
    rw [take_append, take_of_length_le (Nat.le_of_lt hlong)] at hchars
    -- The token holds the last character of the beginning and the first one behind it.
    obtain ⟨b, rest, rfl⟩ : ∃ b rest, back = b :: rest := by
      cases back with
      | nil =>
        rw [append_nil] at hk
        omega
      | cons b rest => exact ⟨b, rest, rfl⟩
    obtain ⟨more, hmore⟩ : ∃ more, k - (front.drop i).length = more + 1 :=
      ⟨k - (front.drop i).length - 1, by omega⟩
    have ha := hchars _ (mem_append_left _ (getLast_mem hne))
    have hb := hchars b (mem_append_right _ (by rw [hmore]; simp))
    have hlast : front.getLast? = some ((front.drop i).getLast hne) := by
      rw [getLast?_of_drop rfl hne, List.getLast?_eq_some_getLast hne]
    rcases ht _ b hlast rfl with hended | hstops
    · exact absurd ha (any_eq_false.mp hf _ (mem_append_left _ hended))
    · exact absurd hb (any_eq_false.mp hf b (mem_append_right _ hstops))
  next => cases h

omit ht in
theorem Cuts.firm_of_inside (h : Cuts front back K p i) (hp : p.nullable (fun _ => false) = false)
    (hinside : ∀ v n, read (front ++ back) p i = .ok v n → front.length < n → front.length ≤ i) :
    Firm front back p i := by
  unfold Firm Cuts at *
  generalize hwhole : read (front ++ back) p i = v at h hinside ⊢
  generalize hbegin : read front p i = w at h ⊢
  cases h with
  | miss => exact .miss
  | same hle => exact .same hle
  | lost hlt => exact .lost hlt
  | dead => exact .dead
  | short hlt hle hK =>
    have := hinside _ _ rfl hlt
    have := (read_bounds hbegin hi).2.2 hp
    omega

omit ht in
theorem Cuts.alt_of_inside (hp : Cuts front back K p i) (hq : Cuts front back K q i)
    (hnullable : q.nullable (fun _ => false) = false) (hopen : harmless q = true)
    (hinside : ∀ v n, read (front ++ back) p i = .ok v n → front.length < n → front.length ≤ i) :
    Cuts front back K (.alt p q) i := by
  refine hp.alt hq (read_ne_dead hopen) fun v n v' n' hok hn hother hn' => ?_
  have := hinside v n hok hn
  have := (read_bounds hother (le_append hi)).2.2 hnullable
  omega

theorem identifier_inside (h : read (front ++ back) identifier i = .ok v n) (hn : front.length < n) :
    front.length ≤ i := by
  have hstart : ∀ c : Char, (c.isAlpha || c == '_') = true → Parse.Engine.isWordChar c = true := by
    intro c hc
    rcases Bool.or_eq_true_iff.mp hc with hc | hc
    · simp [Parse.Engine.isWordChar, Char.isAlphanum, hc]
    · simp [Parse.Engine.isWordChar, eq_of_beq hc]
  have hwithin : Within Parse.Engine.isWordChar Shape.identifier := ⟨hstart, fun _ => id⟩
  exact ht.token_inside hi hwithin (by decide) h hn

theorem keyword_inside (hword : word.all Char.isAlpha = true)
    (h : read (front ++ back) (.keyword word name) i = .ok v n) (hn : front.length < n) :
    front.length ≤ i := by
  rw [read_keyword (le_append hi)] at h
  split at h
  next hstarts =>
    have htoken : read (front ++ back) (.token (.exactly word) name) i = .ok v n := by
      rw [read_token_exactly (le_append hi), read_text (le_append hi), if_pos hstarts.1]
      exact h
    have hwithin : Within Char.isAlpha (.exactly word) := hword
    exact ht.token_inside hi hwithin (by decide) htoken hn
  next => cases h

theorem firm_identifier : Firm front back identifier i := by
  have hcuts : Cuts front back (Ends front []) identifier i :=
    cuts_token_seq hi (firm_one hi _ _) (fun n _ hn => cuts_star_one hn) (fun _ _ => False.elim)
  exact hcuts.firm_of_inside hi rfl fun _ _ hok hn => identifier_inside ht hi hok hn

theorem firm_variableName : Firm front back variableName i :=
  Cuts.map (firm_identifier ht hi) _

omit ht in
theorem cuts_token_opt (h : Cuts front back K (.token shape name) i)
    (hlost : ∀ v n, read (front ++ back) (.token shape name) i = .ok v n → front.length < n → K i) :
    Cuts front back K (.token (.opt shape) name) i := by
  refine cuts_token_alt hi h (firm_exactly hi).cuts ?_
  intro v n v' n' hok hn hnone hn'
  rw [read_token_exactly (le_append hi), read_text (le_append hi)] at hnone
  cases hnone
  exact hlost v n hok hn

/-- The characters of numbers. -/
def numeral (c : Char) : Bool :=
  Text.isDecimal c || c == '-' || c == '.'

theorem number_inside (h : read (front ++ back) (.token Shape.number name) i = .ok v n)
    (hn : front.length < n) : front.length ≤ i := by
  have hdigit : ∀ c, Text.isDecimal c = true → numeral c = true := by
    intro c hc
    simp [numeral, hc]
  have hwithin : Within numeral Shape.number :=
    ⟨⟨⟨rfl, rfl⟩, hdigit, hdigit⟩, ⟨rfl, hdigit, hdigit⟩, rfl⟩
  exact ht.token_inside hi hwithin (by decide) h hn

theorem firm_number_token (name : String) : Firm front back (.token Shape.number name) i := by
  have hdigits : ∀ {j}, j ≤ front.length →
      Cuts front back (Ends front []) (.token Shape.digits name) j := fun hj => cuts_plus_one hj
  have hsign : Cuts front back (Ends front []) (.token (.opt (.lit "-")) name) i := by
    refine cuts_token_opt hi (firm_exactly hi).cuts fun v n hok hn => ?_
    have htext : read (front ++ back) (.text "-".toList name) i = .ok v n :=
      (read_token_exactly (le_append hi)).symm.trans hok
    exact ends_of_text hi htext hn rfl
  have hwhole : Cuts front back (Ends front [])
      (.token (.opt (.lit "-") ++ Shape.digits) name) i :=
    cuts_token_seq hi hsign (fun n _ hn => hdigits hn)
      (fun n hn hend => hend.closes hn rfl)
  have hcuts : Cuts front back (fun _ => True) (.token Shape.number name) i := by
    refine cuts_token_seq hi hwhole (fun n _ hn => ?_) (fun n hn hend => ?_)
    · refine cuts_token_opt hn ?_ fun _ _ _ _ => trivial
      exact cuts_token_seq hn (firm_exactly hn) (fun m _ hm => (hdigits hm).mono fun _ _ _ => trivial)
        (fun _ _ => False.elim)
    · exact hend.closes_still hn rfl rfl trivial
  exact hcuts.firm_of_inside hi rfl fun _ _ hok hn => number_inside ht hi hok hn

/-! ### Free space -/

/-- One stretch of free space. -/
def gap : Pattern :=
  .plus (Shape.among " \t\r\n") <|> Shape.lineComment <|> Shape.blockComment

omit ht

omit hi in
theorem prefix_of_token (hi : i ≤ text.length)
    (h : read text (.token (.exactly literal ++ shape) name) i = .ok v n) :
    literal.isPrefixOf (text.drop i) = true := by
  have hseq := (read_token_seq hi).symm.trans h
  rw [read_seq, read_map] at hseq
  obtain ⟨f, m, hfirst, -⟩ := bind_eq_ok.mp hseq
  obtain ⟨u, hfirst, -⟩ := map_eq_ok.mp hfirst
  rw [read_token_exactly hi] at hfirst
  exact (read_text_ok hi hfirst).1

omit hi in
theorem eq_of_starts (h : literal.isPrefixOf rest = true) (h' : literal'.isPrefixOf rest = true)
    (hlength : literal.length = literal'.length) : literal = literal' :=
  (prefix_of_prefix_length_le (List.isPrefixOf_iff_prefix.mp h)
    (List.isPrefixOf_iff_prefix.mp h') (Nat.le_of_eq hlength)).eq_of_length hlength

omit hi in
/-- No place begins a comment of both kinds. -/
theorem comments_exclude (hi : i ≤ text.length)
    (hline : read text (.token Shape.lineComment name) i = .ok v n)
    (hblock : read text (.token Shape.blockComment name') i = .ok v' n') : False := by
  have heq := eq_of_starts (prefix_of_token hi hline) (prefix_of_token hi hblock) (by decide)
  exact absurd heq (by decide)

theorem cuts_gap (name : String) : Cuts front back (Ends front []) (.token gap name) i := by
  have hline : Cuts front back (Ends front []) (.token Shape.lineComment name) i :=
    cuts_token_seq hi (firm_exactly hi) (fun n _ hn => cuts_star_one hn) (fun _ _ => False.elim)
  have hblock : Firm front back (.token Shape.blockComment name) i :=
    cuts_token_seq hi (firm_exactly hi) (fun n _ hn => firm_through hn (by decide) name)
      (fun _ _ => False.elim)
  refine cuts_token_alt hi (cuts_plus_one hi) (cuts_token_alt hi hline hblock.cuts ?_) ?_
  · intro v n v' n' hline _ hblock _
    exact (comments_exclude (le_append hi) hline hblock).elim
  · intro v n v' n' hblanks _ hcomment _
    have hends := ends_of_read [' ', '\t', '\r', '\n'] hblanks (le_append hi) rfl (by
      intro c hc
      simpa [begins, Shape.among] using hc)
    have hmiss := hends.eq_miss (p := .token (Shape.lineComment <|> Shape.blockComment) name)
      (le_append hi) rfl
    cases hcomment.symm.trans hmiss

omit hi in
theorem gap_of_blank (hi : i ≤ text.length) (hc : (text.drop i).head? = some c)
    (hblank : " \t\r\n".toList.contains c = true) : read text (.token gap name) i ≠ .miss := by
  intro hmiss
  have hblanks := (orElse_eq_miss.mp ((read_alt _ _).symm.trans
    ((read_token_alt hi).symm.trans hmiss))).1
  obtain ⟨rest, hrest⟩ := head?_eq_some_iff.mp hc
  have hmatch : (Pattern.plus (Shape.among " \t\r\n")).match? (c :: rest) =
      Option.map (1 + ·) (Pattern.match? (.star (Shape.among " \t\r\n")) rest) := by
    change Option.bind (if _ then some 1 else none) _ = _
    rw [if_pos hblank]
    rfl
  rw [read_token hi, hrest, hmatch] at hblanks
  cases hblanks

/-- Free space is over at the place, and no space or comment has been cut there, unless a comment
whose end is missing. -/
def Settled (front : List Char) (n : Nat) : Prop :=
  Ends front ['/'] n ∧ read front (.token gap "whitespace") n = .miss

theorem cuts_space : Cuts front back (Settled front) space i := by
  refine cuts_token_star hi (Cuts.many hi rfl (fun j _ hj => cuts_gap hj _) ?_ ?_)
  · intro j v n _ hj hok hn hmiss
    refine ⟨fun c hc => ?_, hmiss⟩
    have hends := (ends_of_read [' ', '\t', '\r', '\n', '/'] hok (le_append hj) rfl (by
      intro c hc
      simpa [begins, gap, Shape.among, Shape.lineComment, Shape.blockComment, or_assoc]
        using hc)).of_whole
    have hc' := hends c hc
    -- Before a blank there is also space in the beginning.
    by_contra hslash
    have hblank : " \t\r\n".toList.contains c = true := by
      simp only [mem_cons, not_mem_nil, or_false] at hc' hslash
      simpa [hslash] using hc'
    exact gap_of_blank hj hc hblank hmiss
  · intro j hj hends
    exact ⟨hends.eq_miss hj rfl, hends.mono fun _ hc => absurd hc not_mem_nil, hends.eq_miss hj rfl⟩

omit hi in
theorem Settled.closes (hn : n ≤ front.length) (h : Settled front n) (hp : shut ['/'] p = true) :
    Closes front back K p n :=
  h.1.closes hn hp

omit hi in
theorem Cuts.ends (h : Cuts front back (Settled front) p i) :
    Cuts front back (Ends front ['/']) p i :=
  h.mono fun _ _ hsettled => hsettled.1

omit hi in
theorem Settled.stays (hn : n ≤ front.length) (h : Settled front n) :
    ∃ v, read front space n = .ok v n := by
  refine ⟨joined [], ?_⟩
  have hmany : read front (.many (.token gap "whitespace")) n = .ok [] n := by
    rw [read_many, h.2]
  have hmap : read front (.map joined (.many (.token gap "whitespace"))) n = .ok (joined []) n := by
    rw [read_map, hmany]
    rfl
  exact (read_token_star hn).trans hmap

/-! ### Punctuation -/

theorem firm_lit (text : String) : Firm front back (Parse.Parser.lit text : Parser String) i :=
  firm_text hi _ _

theorem firm_closing (text : String) : Firm front back (closing text) i :=
  firm_text hi _ _

theorem Firm.keep_ws (hp : Firm front back p i) : Cuts front back (Ends front []) (p <* ws) i :=
  Firm.keep hi hp fun _ _ _ hn => cuts_ws hn

theorem Firm.skip_ws (hp : Firm front back p i) : Cuts front back (Ends front []) (p *> ws) i :=
  Firm.skip hi hp fun _ _ _ hn => cuts_ws hn

theorem Firm.keep_space (hp : Firm front back p i) :
    Cuts front back (Settled front) (p <* space) i :=
  Firm.keep hi hp fun _ _ _ hn => cuts_space hn

theorem Firm.skip_space (hp : Firm front back p i) :
    Cuts front back (Settled front) (p *> space) i :=
  Firm.skip hi hp fun _ _ _ hn => cuts_space hn

theorem Cuts.keep_lit (hp : Cuts front back (Ends front H) p i)
    (hshut : shut H (Parse.Parser.lit mark : Parser String) = true) :
    Firm front back (p <* Parse.Parser.lit mark) i :=
  Cuts.keep_shut hi hp hshut fun _ _ _ hn => firm_lit hn mark

theorem Cuts.skip_lit (hp : Cuts front back (Ends front H) p i)
    (hshut : shut H (Parse.Parser.lit mark : Parser String) = true) :
    Firm front back (p *> Parse.Parser.lit mark) i :=
  Cuts.skip_shut hi hp hshut fun _ _ _ hn => firm_lit hn mark

/-- Whether a text is a word of letters. -/
def isWord (text : String) : Bool :=
  !text.toList.isEmpty && text.toList.all Char.isAlpha

include ht

theorem firm_word (htext : isWord text = true) :
    Firm front back (Parse.Parser.word text : Parser String) i := by
  obtain ⟨hne, hletters⟩ := Bool.and_eq_true_iff.mp htext
  exact firm_keyword ht hi (by simpa using hne) hletters _

omit ht

theorem cuts_comma : Cuts front back (Settled front) comma i :=
  Firm.keep_space hi (Cuts.skip_lit hi (cuts_space hi).ends (by decide))

theorem firm_enclosed (hmark : mark.toList.isEmpty = false) (name : String) :
    Firm front back (.token (Shape.enclosed mark) name) i := by
  refine cuts_token_seq hi (L := Ends front []) ?_ (fun n _ hn => firm_exactly hn)
    (fun n hn h => h.closes hn ?_)
  · exact cuts_token_seq hi (firm_exactly hi) (fun n _ hn => cuts_star_one hn)
      (fun _ _ => False.elim)
  · simp only [shut, still, begins, Parse.Parser.nullable, Pattern.nullable_lit, hmark]
    rfl

end AgentLang.Grammar
