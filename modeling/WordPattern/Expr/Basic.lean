import WordPattern.Automaton.Basic

/-!
# Expressions

Expressions over characters, as they are built from an automaton: literal
text, character classes, concatenations, alternations, and bodies that may be
left out or repeated. Every tree is an expression; the builders at the end
keep alternations flat and sorted and classes free of repeats, and plain
constructors do not.
-/

namespace WordPattern

/-- How often the body of a repetition may occur. -/
inductive Quantifier where
  /-- Once or not at all. -/
  | optional
  /-- Any number of times. -/
  | star
deriving DecidableEq

/-- An expression. -/
inductive Expr where
  /-- Literal text; the empty literal matches the empty word only. -/
  | literal (text : Word)
  /-- Any one of the members, in the order in which they were met. -/
  | charClass (members : List Char)
  /-- One expression after the other. -/
  | concat (first second : Expr)
  /-- Any one of the options, in the order in which they are tried. -/
  | alternation (options : List Expr)
  /-- A body as often as the quantifier allows. -/
  | repetition (body : Expr) (quantifier : Quantifier)

/-- The end of an expression at which text is exposed. -/
inductive Side where
  /-- Where matching begins. -/
  | start
  /-- Where matching ends. -/
  | finish
deriving DecidableEq

namespace Expr

mutual

/-- Decides whether two expressions are the same tree. -/
def decideEq : (a b : Expr) → Decidable (a = b)
  | literal s, literal t => decidable_of_iff (s = t) (by simp)
  | charClass s, charClass t => decidable_of_iff (s = t) (by simp)
  | concat a b, concat c d =>
    have := decideEq a c
    have := decideEq b d
    decidable_of_iff (a = c ∧ b = d) (by simp)
  | alternation xs, alternation ys =>
    have := decideEqList xs ys
    decidable_of_iff (xs = ys) (by simp)
  | repetition a q, repetition b r =>
    have := decideEq a b
    decidable_of_iff (a = b ∧ q = r) (by simp)
  | literal _, charClass _ => isFalse nofun
  | literal _, concat .. => isFalse nofun
  | literal _, alternation _ => isFalse nofun
  | literal _, repetition .. => isFalse nofun
  | charClass _, literal _ => isFalse nofun
  | charClass _, concat .. => isFalse nofun
  | charClass _, alternation _ => isFalse nofun
  | charClass _, repetition .. => isFalse nofun
  | concat .., literal _ => isFalse nofun
  | concat .., charClass _ => isFalse nofun
  | concat .., alternation _ => isFalse nofun
  | concat .., repetition .. => isFalse nofun
  | alternation _, literal _ => isFalse nofun
  | alternation _, charClass _ => isFalse nofun
  | alternation _, concat .. => isFalse nofun
  | alternation _, repetition .. => isFalse nofun
  | repetition .., literal _ => isFalse nofun
  | repetition .., charClass _ => isFalse nofun
  | repetition .., concat .. => isFalse nofun
  | repetition .., alternation _ => isFalse nofun

/-- Decides whether two lists hold the same trees. -/
def decideEqList : (xs ys : List Expr) → Decidable (xs = ys)
  | [], [] => isTrue rfl
  | [], _ :: _ => isFalse nofun
  | _ :: _, [] => isFalse nofun
  | x :: xs, y :: ys =>
    have := decideEq x y
    have := decideEqList xs ys
    decidable_of_iff (x = y ∧ xs = ys) (by simp)

end

instance : DecidableEq Expr := decideEq

/-- The empty literal. -/
def empty : Expr := literal []

/-- Whether the expression is the empty literal. -/
def isEmptyLiteral : Expr → Bool
  | literal text => text.isEmpty
  | _ => false

/-- How tightly the written form holds together. -/
def precedence : Expr → Nat
  | alternation _ | charClass _ => 1
  | concat .. | literal _ => 2
  | repetition .. => 3

/-- An estimate of the length of the longest match, by which alternations are
ordered: an alternation counts as its first option, and a repetition as its
body. -/
def length : Expr → Nat
  | literal text => text.length
  | charClass _ => 1
  | concat a b => a.length + b.length
  | alternation [] => 0
  | alternation (first :: _) => first.length
  | repetition body _ => body.length

/-- Whether the expression is one code point to a reader of code points. -/
def isSingleCodePoint : Expr → Bool
  | literal text => text.length = 1
  | charClass _ => true
  | _ => false

/-- Whether the expression is one character of the basic plane, up to U+FFFF. -/
def isSingleCharacter : Expr → Bool
  | literal [c] => c.toNat ≤ 0xFFFF
  | charClass members => members.all (·.toNat ≤ 0xFFFF)
  | _ => false

/-- The characters that the expression contributes to a class that takes it in. -/
def classMembers? : Expr → Option (List Char)
  | literal [c] => some [c]
  | charClass members => some members
  | _ => none

/-- The options of an alternation; anything else is its own only option. -/
def options : Expr → List Expr
  | alternation xs => xs
  | e => [e]

/-- An alternation of two expressions. Options of an alternation become options
of the result, the first of equal options stays, longer options come first, and
options of one length keep their order. A single option stands for itself. -/
def either (a b : Expr) : Expr :=
  match (a.options ++ b.options).eraseDups with
  | [only] => only
  | options => alternation (options.mergeSort fun x y => y.length ≤ x.length)

/-- The class of the members of two lists, each character once, in the order in
which they are met. -/
def classOf (xs ys : List Char) : Expr := charClass (xs ++ ys).eraseDups

end Expr

end WordPattern
