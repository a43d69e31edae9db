import AgentLang.Grammar.Lexeme
import AgentLang.Number.Read
import AgentLang.Proofs.Parse.Pattern
import Mathlib.Data.List.TakeWhile

/-!
# Numbers that are written can be read

A number of the language is an optional sign, digits, and an optional fraction. Reading it only
fails for a whole number with too many digits.
-/

namespace AgentLang.Number

open List

/-- Digits, at least one. -/
def Digits (text : List Char) : Prop :=
  text ≠ [] ∧ ∀ c ∈ text, Text.isDecimal c = true

theorem digits_of_accepts (h : Grammar.Shape.digits.Accepts text) : Digits text := by
  obtain ⟨u, v, ⟨c, hc, rfl⟩, ⟨parts, hparts, rfl⟩, rfl⟩ := h
  refine ⟨cons_ne_nil _ _, fun d hd => ?_⟩
  rcases mem_cons.mp hd with rfl | hd
  · exact hc
  · obtain ⟨part, hpart, hd⟩ := mem_flatten.mp hd
    obtain ⟨digit, hdigit, rfl⟩ := hparts part hpart
    rwa [List.mem_singleton.mp hd]

theorem parts_of_accepts (h : Grammar.Shape.number.Accepts text) :
    ∃ sign whole fraction, text = sign ++ (whole ++ fraction) ∧ (sign = [] ∨ sign = ['-']) ∧
      Digits whole ∧ (fraction = [] ∨ ∃ digits, fraction = '.' :: digits ∧ Digits digits) := by
  obtain ⟨front, fraction, ⟨sign, whole, hsign, hwhole, rfl⟩, hfraction, rfl⟩ := h
  refine ⟨sign, whole, fraction, append_assoc _ _ _, ?_, digits_of_accepts hwhole, ?_⟩
  · exact hsign.symm
  · rcases hfraction with ⟨point, digits, hpoint, hdigits, rfl⟩ | hnone
    · exact .inr ⟨digits, congrArg (· ++ digits) hpoint, digits_of_accepts hdigits⟩
    · exact .inl hnone

/-! ### Digits and other characters -/

theorem ne_of_isDecimal (hc : Text.isDecimal c = true) (hd : Text.isDecimal d = false) : c ≠ d := by
  rintro rfl
  exact nomatch hd.symm.trans hc

theorem Digits.notMem (h : Digits text) (hd : Text.isDecimal d = false) : d ∉ text :=
  fun hmem => ne_of_isDecimal (h.2 d hmem) hd rfl

theorem digitZeros_not_blank :
    ∀ start ∈ Text.digitZeros, ∀ offset < 10, Text.blank.holds (start + offset) = false := by
  decide

theorem block_of_isDecimal (h : Text.isDecimal c = true) :
    ∃ start ∈ Text.digitZeros, ∃ offset < 10, c.toNat = start + offset := by
  unfold Text.isDecimal Text.digitValue? at h
  split at h
  · split at h
    next hdigit =>
      have hrange : '0'.toNat ≤ c.toNat ∧ c.toNat ≤ '9'.toNat := by
        simpa [Char.isDigit, UInt32.le_iff_toNat_le] using hdigit
      have hzero : '0'.toNat = 0x30 := by decide
      have hnine : '9'.toNat = 0x39 := by decide
      exact ⟨0x30, by decide, c.toNat - 0x30, by omega, by omega⟩
    next => exact nomatch h
  · rw [Option.isSome_map] at h
    obtain ⟨start, hfind⟩ := Option.isSome_iff_exists.mp h
    have hstart := List.find?_some hfind
    rw [Bool.and_eq_true, decide_eq_true_iff, decide_eq_true_iff] at hstart
    exact ⟨start, List.mem_of_find?_eq_some hfind, c.toNat - start, by omega, by omega⟩

theorem isMargin_of_isDecimal (h : Text.isDecimal c = true) : Constant.isMargin c = false := by
  obtain ⟨start, hstart, offset, hoffset, hcode⟩ := block_of_isDecimal h
  have hblank : Text.isBlank c = false := by
    rw [Text.isBlank, Text.CodeSet.contains, hcode]
    exact digitZeros_not_blank start hstart offset hoffset
  rw [Constant.isMargin, hblank, Bool.false_and]

theorem splitAt_of_notMem (h : mark ∉ text) : Text.splitAt mark text = [text] := by
  induction text with
  | nil => rfl
  | cons c rest ih =>
    rw [mem_cons, not_or] at h
    rw [Text.splitAt, if_neg (Ne.symm h.1), ih h.2]

theorem splitAt_append (rest : List Char) (h : mark ∉ before) :
    Text.splitAt mark (before ++ mark :: rest) = before :: Text.splitAt mark rest := by
  induction before with
  | nil => simp [Text.splitAt]
  | cons c before ih =>
    rw [mem_cons, not_or] at h
    rw [cons_append, Text.splitAt, if_neg (Ne.symm h.1), ih h.2]

namespace Constant

theorem unmargined_eq_self (h : ∀ c ∈ text, isMargin c = false) : unmargined text = text := by
  have hdrop : ∀ chars : List Char, (∀ c ∈ chars, isMargin c = false) →
      chars.dropWhile isMargin = chars := fun chars hchars =>
    dropWhile_eq_self_iff.mpr fun hl => by simp [hchars _ (getElem_mem hl)]
  have hreverse : ∀ c ∈ text.reverse, isMargin c = false :=
    fun c hc => h c (mem_reverse.mp hc)
  rw [unmargined, hdrop text h, hdrop _ hreverse, reverse_reverse]

theorem mapM_digitValue? {text : List Char} (h : ∀ c ∈ text, Text.isDecimal c = true) :
    ∃ values, text.mapM Text.digitValue? = some values ∧ values.length = text.length := by
  induction text with
  | nil => exact ⟨[], rfl, rfl⟩
  | cons c rest ih =>
    rw [forall_mem_cons] at h
    obtain ⟨value, hvalue⟩ := Option.isSome_iff_exists.mp h.1
    obtain ⟨values, hvalues, hlength⟩ := ih h.2
    exact ⟨value :: values, by simp [mapM_cons, hvalue, hvalues], by simp [hlength]⟩

theorem digits?_of_digits {text : List Char} (h : Digits text) :
    ∃ values, digits? text = some values ∧ values.length = text.length := by
  have hmark : '_' ∉ text := h.notMem (by decide)
  obtain ⟨values, hvalues, hlength⟩ := mapM_digitValue? h.2
  refine ⟨values, ?_, hlength⟩
  simp [digits?, splitAt_of_notMem hmark, h.1, hvalues]

/-- What stands behind the sign is what is read, if it starts with digits. -/
theorem signed_append (hsign : sign = [] ∨ sign = ['-']) (hwhole : Digits whole) (rest : List Char) :
    ∃ negative, signed (sign ++ (whole ++ rest)) = (negative, whole ++ rest) := by
  rcases hsign with rfl | rfl
  · obtain ⟨c, others, rfl⟩ := exists_cons_of_ne_nil hwhole.1
    have hc := hwhole.2 c mem_cons_self
    refine ⟨false, ?_⟩
    unfold signed
    split
    next heq => exact absurd (List.cons.inj heq).1 (ne_of_isDecimal hc (by decide))
    next heq => exact absurd (List.cons.inj heq).1 (ne_of_isDecimal hc (by decide))
    next => rfl
  · exact ⟨true, rfl⟩

theorem unmargined_number (hsign : sign = [] ∨ sign = ['-']) (hwhole : Digits whole)
    (hrest : ∀ c ∈ rest, c = '.' ∨ Text.isDecimal c = true) :
    unmargined (sign ++ (whole ++ rest)) = sign ++ (whole ++ rest) := by
  refine unmargined_eq_self fun c hc => ?_
  rcases mem_append.mp hc with hc | hc
  · rcases hsign with rfl | rfl
    · exact nomatch hc
    · rw [List.mem_singleton.mp hc]
      decide
  · rcases mem_append.mp hc with hc | hc
    · exact isMargin_of_isDecimal (hwhole.2 c hc)
    · rcases hrest c hc with rfl | hc
      · decide
      · exact isMargin_of_isDecimal hc

theorem int?_isSome (hsign : sign = [] ∨ sign = ['-']) (hwhole : Digits whole)
    (hshort : whole.length ≤ mostDigits) : (int? (sign ++ whole)).isSome = true := by
  obtain ⟨negative, hsigned⟩ := signed_append hsign hwhole []
  obtain ⟨values, hvalues, hlength⟩ := digits?_of_digits hwhole
  have hplain := unmargined_number hsign hwhole (forall_mem_nil _)
  rw [append_nil] at hsigned hplain
  have hfits : ¬mostDigits < values.length := by omega
  simp [int?, hplain, hsigned, hvalues, hfits]

theorem float?_isSome (hsign : sign = [] ∨ sign = ['-']) (hwhole : Digits whole)
    (hfraction : Digits fraction) :
    (float? (sign ++ (whole ++ '.' :: fraction))).isSome = true := by
  obtain ⟨negative, hsigned⟩ := signed_append hsign hwhole ('.' :: fraction)
  obtain ⟨values, hvalues, hlength⟩ := digits?_of_digits hwhole
  obtain ⟨values', hvalues', -⟩ := digits?_of_digits hfraction
  have hrest : ∀ c ∈ '.' :: fraction, c = '.' ∨ Text.isDecimal c = true :=
    forall_mem_cons.mpr ⟨.inl rfl, fun c hc => .inr (hfraction.2 c hc)⟩
  have hnotMem : ∀ d, Text.isDecimal d = false → d ≠ '.' → d ∉ whole ++ '.' :: fraction := by
    intro d hd hne
    simp [hwhole.notMem hd, hfraction.notMem hd, hne]
  have hmark : ∀ c ∈ whole ++ '.' :: fraction, (!(c == 'e' || c == 'E')) = true := by
    intro c hc
    have he : c ≠ 'e' := fun heq => hnotMem 'e' (by decide) (by decide) (heq ▸ hc)
    have hE : c ≠ 'E' := fun heq => hnotMem 'E' (by decide) (by decide) (heq ▸ hc)
    simp [he, hE]
  have hdrop := dropWhile_eq_nil_iff.mpr hmark
  have htake := takeWhile_eq_self_iff.mpr hmark
  have hsplit : Text.splitAt '.' (whole ++ '.' :: fraction) = [whole, fraction] := by
    rw [splitAt_append _ (hwhole.notMem (by decide)),
      splitAt_of_notMem (hfraction.notMem (by decide))]
  have hne : values ≠ [] := by
    rw [← length_pos_iff, hlength]
    exact length_pos_iff.mpr hwhole.1
  simp only [float?, unmargined_number hsign hwhole hrest, hsigned, hdrop, htake, hsplit]
  simp [digitsOrNone?, hwhole.1, hfraction.1, hvalues, hvalues', hne]

/-- A written number can be read, unless it is a whole number with too many digits. -/
theorem ofText?_isSome (h : Grammar.Shape.number.Accepts text.toList)
    (hshort : '.' ∈ text.toList ∨ text.toList.countP Text.isDecimal ≤ mostDigits) :
    (ofText? text).isSome = true := by
  obtain ⟨sign, whole, fraction, htext, hsign, hwhole, hfraction⟩ := parts_of_accepts h
  rw [htext] at hshort
  rw [ofText?, htext]
  rcases hfraction with rfl | ⟨digits, rfl, hdigits⟩
  · rw [append_nil] at hshort ⊢
    have hpoint : '.' ∉ sign ++ whole := by
      rcases hsign with rfl | rfl <;> simp [hwhole.notMem (d := '.') (by decide)]
    have hlength : whole.length ≤ mostDigits := by
      have hcount := hshort.resolve_left hpoint
      have hwhole' : whole.countP Text.isDecimal = whole.length :=
        countP_eq_length.mpr hwhole.2
      rw [countP_append, hwhole'] at hcount
      omega
    rw [if_neg (by simpa using hpoint), Option.isSome_map]
    exact int?_isSome hsign hwhole hlength
  · rw [if_pos (by simp), Option.isSome_map]
    exact float?_isSome hsign hwhole hdigits

end Constant
end AgentLang.Number
