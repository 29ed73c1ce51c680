import WordPattern.Expr.Basic

/-!
# Text exposed at the ends of an expression

A literal exposes its text at both ends, and a concatenation exposes what its
first part exposes at the start and its second part at the finish. Exposed
text can be taken off: what is left, put after or before that text, matches
the same words. Other expressions expose nothing, even where all their matches
begin alike.
-/

namespace WordPattern.Expr

/-- The text exposed at an end. -/
def literalAt? (side : Side) : Expr → Option Word
  | literal text => some text
  | concat a b =>
    match side with
    | .start => a.literalAt? side
    | .finish => b.literalAt? side
  | _ => none

/-- Takes `count` characters off the text exposed at an end, or all of it if it
has fewer. A part of a concatenation that becomes empty is left out. -/
def dropAt? (side : Side) (count : Nat) : Expr → Option Expr
  | literal text =>
    match side with
    | .start => some (literal (text.drop count))
    | .finish => some (literal (text.take (text.length - count)))
  | concat a b =>
    match side with
    | .start => (a.dropAt? side count).map fun a => if a.isEmptyLiteral then b else concat a b
    | .finish => (b.dropAt? side count).map fun b => if b.isEmptyLiteral then a else concat a b
  | _ => none

/-- The longest common beginning of two words. -/
def commonStart : Word → Word → Word
  | c :: s, d :: t => if c = d then c :: commonStart s t else []
  | _, _ => []

/-- The longest text that two words share at an end. -/
def common : Side → Word → Word → Word
  | .start, s, t => commonStart s t
  | .finish, s, t => (commonStart s.reverse t.reverse).reverse

/-- The longest text that two expressions expose in common at an end. -/
def commonAt (side : Side) (a b : Expr) : Word :=
  match a.literalAt? side, b.literalAt? side with
  | some s, some t => common side s t
  | _, _ => []

/-- Takes the text that two expressions expose in common off both, and gives
what is left of them and that text. -/
def factor (side : Side) (a b : Expr) : Expr × Expr × Word :=
  match commonAt side a b with
  | [] => (a, b, [])
  | text => ((a.dropAt? side text.length).getD a, (b.dropAt? side text.length).getD b, text)

end WordPattern.Expr
