import AgentLang.Proofs.Grammar.InsertBody

/-!
# Inserting semicolons: blocks and conditionals

Blocks that are closed before the semicolons are the same with them, if the statements inside are. A
conditional may have another branch behind it, so for it no `else` may follow.
-/

namespace AgentLang.Grammar

open Verdict
open Parse.Parser (lit word)

variable {α : Type} {front back rest : List Char} {i n : Nat}

/-! ### Blocks -/

/-- All statements behind the place are the same before the semicolons. -/
def LaterPersist (front back rest : List Char) (i : Nat) : Prop :=
  ∀ j, i < j → j ≤ front.length → StatementPersists front back rest j

theorem LaterPersist.mono (h : LaterPersist front back rest i) (hin : i ≤ n) :
    LaterPersist front back rest n :=
  fun j hj => h j (Nat.lt_of_le_of_lt hin hj)

variable (h : Inserted front back rest) (hi : i ≤ front.length)
include h hi

theorem Inserted.stable_body (hlater : LaterPersist front back rest i) :
    Stable front back rest body i :=
  h.stable_items (K := fun _ => False) hi ((inert_lit hi (by decide)).keeps.map _)
    (fun j _ hlt hj => hlater j (hlt rfl) hj) fun _ _ _ => id

theorem Inserted.stable_block {γ : Type} {f : α → List Node → γ} {p : Parser α}
    (hp : Stable front back rest p i) (hlater : LaterPersist front back rest i) :
    Stable front back rest (f <$> p <* ws <*> body) i := by
  have hhead : Stable front back rest (f <$> p <* ws : Parser (List Node → γ)) i :=
    Keeps.keep hi (hp.map f) fun n _ _ hn => (inert_ws hn).keeps
  exact Keeps.seq hi hhead fun n hin _ hn => h.stable_body hn (hlater.mono hin)

theorem Inserted.stable_messageThread (hlater : LaterPersist front back rest i) :
    Stable front back rest messageThread i :=
  h.stable_block hi (h.keeps (fun ht => (inside_threadWord ht hi).firm) rfl) hlater

theorem Inserted.stable_timeBlock (hlater : LaterPersist front back rest i) :
    Stable front back rest timeBlock i :=
  h.stable_block hi (h.keeps (fun ht => (inside_timeWord ht hi).firm) rfl) hlater

theorem Inserted.stable_conditional (htext : isWord text = true) :
    Stable front back rest (conditional text) i :=
  h.keeps (fun ht => firm_conditional ht hi htext) rfl

theorem Inserted.stable_whileLoop (hlater : LaterPersist front back rest i) :
    Stable front back rest whileLoop i :=
  h.stable_block hi (h.stable_conditional hi (by decide)) hlater

/-! ### Conditionals -/

theorem Inserted.conditional_persists (hlater : LaterPersist front back rest i)
    (hconditional : ∀ j, i < j → j ≤ front.length →
      ConditionalCarries front back (front ++ ';' :: rest) j) :
    ConditionalCarries front back (front ++ ';' :: rest) i := by
  refine conditional_carried (le_append (Nat.le_refl _)) hi
    (fun j hj hle => h.stable_body hle (hlater.mono (Nat.le_of_lt hj))) hconditional
    (h.stable_block hi (h.stable_conditional hi (by decide)) hlater) fun j _ hj => ?_
  have hword : Stable front back rest (space *> word "else" : Parser String) j :=
    Carries.skip_spaced hj (persists_space hj)
      (fun n _ _ hn => (inert_word h.tight hn (by decide)).keeps) (by decide)
  exact Keeps.skip hj hword fun n _ _ hn => (inert_ws hn).keeps

end AgentLang.Grammar
