import SmallLisp.Proofs.BareTrees
import SmallLisp.Syntax.Parser

/-! # The grammar of programs

Which texts are programs, and of which trees, without a reader. A form is a part of a text, and what follows
it counts only where a token ends: a name or an integer may not run into the next token. Spans play no part
in trees here.
-/
namespace SmallLisp

/-! ## Tokens -/

def Blanks (b : List Char) : Prop := ∀ c ∈ b, isBlank c = true

/-- A token may end before a text; an opening parenthesis ends only some tokens. -/
def TokenEnds (opening : Bool) : List Char → Prop
  | [] => True
  | c :: _ => isBlank c = true ∨ c = ')' ∨ opening = true ∧ c = '('

def IsIdentifier : List Char → Prop
  | [] => False
  | c :: cs => c.isLower = true ∧ ∀ x ∈ cs, isNameChar x = true

def IsOperand : List Char → Prop
  | [] => False
  | c :: cs => (c.isLower = true ∨ isOperatorChar c = true) ∧ ∀ x ∈ cs, isNameChar x = true

/-- One or more digits of a number up to `2 ^ 63 - 1`, the greatest that 64 bits with a sign can hold. -/
structure IsInteger (ds : List Char) : Prop where
  ne_nil : ds ≠ []
  digits : ∀ d ∈ ds, d.isDigit = true
  bound : Nat.ofDigitChars 10 ds 0 ≤ 9223372036854775807

/-! ## Forms -/

inductive Params : List Char → List String → Prop
  | close {b : List Char} (hb : Blanks b) : Params (b ++ [')']) []
  | cons {b x w : List Char} {xs : List String} (hb : Blanks b) (hx : IsIdentifier x) (hend : TokenEnds false w)
      (hw : Params w xs) : Params (b ++ x ++ w) (String.ofList x :: xs)

mutual

/-- A text, with blanks in front, that is a form with a given tree where `next` follows. -/
inductive Form : (text : List Char) → Expr → (next : List Char) → Prop
  | int {b ds next : List Char} (hb : Blanks b) (hds : IsInteger ds) (hend : TokenEnds false next) :
    Form (b ++ ds) (.int (Int64.ofNat (Nat.ofDigitChars 10 ds 0)) default) next
  | name {b x next : List Char} (hb : Blanks b) (hx : IsIdentifier x) (hend : TokenEnds false next) :
    Form (b ++ x) (.name (String.ofList x) default) next
  | ref {b w next : List Char} {e : Expr} (hb : Blanks b) (h : Form w e next) :
    Form (b ++ '&' :: w) (.ref e default) next
  | define {b b₁ b₂ b₃ x ps w next : List Char} {params : List String} {body : List Expr} (hb : Blanks b)
      (hb₁ : Blanks b₁) (hdef : TokenEnds true (b₂ ++ x)) (hb₂ : Blanks b₂) (hx : IsIdentifier x)
      (hname : TokenEnds true (b₃ ++ ['('])) (hb₃ : Blanks b₃) (hps : Params ps params)
      (hbody : Items w body next) (hne : body ≠ []) :
    Form (b ++ '(' :: (b₁ ++ ['d', 'e', 'f'] ++ b₂ ++ x ++ b₃ ++ '(' :: (ps ++ w)))
      (.define ⟨String.ofList x, params, body, default⟩ default) next
  | branch {b b₁ t w next : List Char} {test : Call} {yes : Expr} {no : Option Expr} (hb : Blanks b)
      (hb₁ : Blanks b₁) (hif : TokenEnds true (t ++ w)) (ht : Form t (.call test default) (w ++ next))
      (hw : Items w (yes :: no.toList) next) :
    Form (b ++ '(' :: (b₁ ++ ['i', 'f'] ++ t ++ w)) (.branch test yes no default) next
  | call {b b₁ x w next : List Char} {args : List Expr} (hb : Blanks b) (hb₁ : Blanks b₁) (hx : IsOperand x)
      (hdef : x ≠ ['d', 'e', 'f']) (hif : x ≠ ['i', 'f']) (hhead : TokenEnds true w) (hargs : Items w args next) :
    Form (b ++ '(' :: (b₁ ++ x ++ w)) (.call ⟨String.ofList x, args, default⟩ default) next

inductive Items : (text : List Char) → List Expr → (next : List Char) → Prop
  | close {b next : List Char} (hb : Blanks b) : Items (b ++ [')']) [] next
  | cons {w ws next : List Char} {e : Expr} {es : List Expr} (h : Form w e (ws ++ next)) (hs : Items ws es next) :
    Items (w ++ ws) (e :: es) next

end

inductive Forms : List Char → List Expr → Prop
  | nil {b : List Char} (hb : Blanks b) : Forms b []
  | cons {w ws : List Char} {e : Expr} {es : List Expr} (h : Form w e ws) (hs : Forms ws es) :
    Forms (w ++ ws) (e :: es)

/-! ## Where texts start and end -/

namespace Blanks

theorem nil : Blanks [] := nofun

theorem append {b b' : List Char} (h : Blanks b) (h' : Blanks b') : Blanks (b ++ b') :=
  List.forall_mem_append.mpr ⟨h, h'⟩

end Blanks

/-- Blanks in front of a form belong to it. -/
theorem Form.blanks_append {b w next : List Char} {e : Expr} (hb : Blanks b) (h : Form w e next) :
    Form (b ++ w) e next := by
  cases h with
  | int hb' hds hend =>
    rw [← List.append_assoc]
    exact .int (hb.append hb') hds hend
  | name hb' hx hend =>
    rw [← List.append_assoc]
    exact .name (hb.append hb') hx hend
  | ref hb' h =>
    rw [← List.append_assoc]
    exact .ref (hb.append hb') h
  | define hb' hb₁ hdef hb₂ hx hname hb₃ hps hbody hne =>
    rw [← List.append_assoc]
    exact .define (hb.append hb') hb₁ hdef hb₂ hx hname hb₃ hps hbody hne
  | branch hb' hb₁ hif ht hw =>
    rw [← List.append_assoc]
    exact .branch (hb.append hb') hb₁ hif ht hw
  | call hb' hb₁ hx hdef hif hhead hargs =>
    rw [← List.append_assoc]
    exact .call (hb.append hb') hb₁ hx hdef hif hhead hargs

/-- Whether a token ends before a text is seen from what the text starts with. -/
theorem tokenEnds_append {opening : Bool} {w : List Char} (h : w ≠ []) (next : List Char) :
    TokenEnds opening (w ++ next) ↔ TokenEnds opening w := by
  cases w with
  | nil => exact absurd rfl h
  | cons c w => exact Iff.rfl

theorem IsIdentifier.ne_nil {x : List Char} (h : IsIdentifier x) : x ≠ [] := by
  rintro rfl
  exact h

theorem IsOperand.ne_nil {x : List Char} (h : IsOperand x) : x ≠ [] := by
  rintro rfl
  exact h

theorem Params.ne_nil {w : List Char} {xs : List String} (h : Params w xs) : w ≠ [] := by
  cases h with
  | close hb => simp
  | cons hb hx hend hw => simp [hx.ne_nil]

end SmallLisp
