import WordPattern.Expr.Affix

/-!
# Union and concatenation, simplified as they are built

Both operations match exactly what the plain ones match. Concatenation drops
empty literals and keeps adjacent literals together where it sees them. Union
takes common text off both ends and looks for the shortest shape of the rest:
something optional, a character class, or an alternation.
-/

namespace WordPattern.Expr

/-- One expression after the other. -/
def append (a b : Expr) : Expr :=
  if a.isEmptyLiteral then b
  else if b.isEmptyLiteral then a
  else
    match a, b with
    | literal s, literal t => literal (s ++ t)
    | literal s, concat (literal t) rest => concat (literal (s ++ t)) rest
    | concat rest (literal s), literal t => concat rest (literal (s ++ t))
    | a, b => concat a b

/-- Either of two expressions without common text, not both empty: an empty one
makes the other optional, an optional one takes the other in, and single
characters become a class. -/
def choice (a b : Expr) : Expr :=
  if a.isEmptyLiteral then repetition b .optional
  else if b.isEmptyLiteral then repetition a .optional
  else
    match a, b with
    | repetition x .optional, y => repetition (either x y) .optional
    | x, repetition y .optional => repetition (either x y) .optional
    | x, y =>
      match x.classMembers?, y.classMembers? with
      | some s, some t => classOf s t
      | _, _ => either x y

/-- Puts text in front of an expression and behind it. -/
def between (before : Word) (e : Expr) (after : Word) : Expr :=
  let e := if before.isEmpty then e else concat (literal before) e
  if after.isEmpty then e else concat e (literal after)

/-- Either of two expressions. -/
def union (a b : Expr) : Expr :=
  if a = b then a
  else
    let (a, b, before) := factor .start a b
    let (a, b, after) := factor .finish a b
    if a.isEmptyLiteral && b.isEmptyLiteral then literal (before ++ after)
    else between before (choice a b) after

/-- Any number of matches, one after the other. -/
def star (e : Expr) : Expr := repetition e .star

/-- Union where an absent expression matches nothing. -/
def union? (a b : Option Expr) : Option Expr := a.merge union b

/-- Concatenation where an absent expression matches nothing. -/
def append? (a b : Option Expr) : Option Expr := do return (← a).append (← b)

end WordPattern.Expr
