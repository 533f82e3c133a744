import PeanoCalculus.Expr.Basic

/-! # The canonical text of an expression

    Every expression is printed in one way, with no blanks and with parentheses only where the
    grammar needs them.  A symbol of rank 0 binds loosest, one of rank 3 tightest; a part is put in
    parentheses when its rank lies below the one its place asks for.  Implication leans right, the
    other connectives and the operations on numbers lean left, and their places ask accordingly.

    Two expressions count as the same formula when their texts are the same. -/

namespace PeanoCalculus

/-- What stands between the two sides. -/
def Operator.symbol : Operator → List Char
  | .implies => ['-', '>']
  | .or => ['|']
  | .and => ['&']
  | .equals => ['=']
  | .plus => ['+']
  | .times => ['*']

/-- How tightly a binary symbol binds. -/
def Operator.rank : Operator → Nat
  | .implies | .plus => 0
  | .or | .times => 1
  | .and => 2
  | .equals => 3

/-- The least rank that needs no parentheses on the left. -/
def Operator.leftRank : Operator → Nat
  | .implies | .or | .times => 1
  | .and => 2
  | .equals | .plus => 0

/-- The least rank that needs no parentheses on the right. -/
def Operator.rightRank : Operator → Nat
  | .implies | .equals => 0
  | .plus => 1
  | .or | .times => 2
  | .and => 3

/-- The sign of a quantifier. -/
def Quantifier.symbol : Quantifier → Char
  | .universal => '@'
  | .existential => '?'

namespace Expr

/-- How tightly the symbol at the root binds. -/
def rank : Expr → Nat
  | .binary op _ _ => op.rank
  | .successor _ _ => 2
  | _ => 3

/-- A text in parentheses. -/
def enclosed (s : List Char) : List Char :=
  '(' :: s ++ [')']

/-- A text of rank `rank` at a place that asks for rank `least`. -/
def fitted (least rank : Nat) (s : List Char) : List Char :=
  if rank < least then enclosed s else s

/-- A text that does not begin with a digit.  Right after a binder a digit would be read as part of
    the binder's name, so a body that begins with one goes in parentheses. -/
def undigited (s : List Char) : List Char :=
  match s with
  | c :: _ => if c.isDigit then enclosed s else s
  | [] => []

mutual

/-- The canonical text, character by character. -/
def chars : Expr → List Char
  | .binary op l r =>
    fitted op.leftRank l.rank l.chars ++ op.symbol ++ fitted op.rightRank r.rank r.chars
  | .negation e => '!' :: fitted 3 e.rank e.chars
  | .quantified q x e => q.symbol :: (x.toList ++ undigited (fitted 3 e.rank e.chars))
  | .apply f [] => f.toList
  | .apply f (a :: as) => f.toList ++ '(' :: (a.chars ++ charsAfter as)
  | .var x => x.toList
  | .successor n e => fitted 3 e.rank e.chars ++ List.replicate n '\''
  | .zero => ['0']

/-- The further arguments of an application, each after a comma, and the closing parenthesis. -/
def charsAfter : List Expr → List Char
  | [] => [')']
  | a :: as => ',' :: (a.chars ++ charsAfter as)

end

/-- The canonical text. -/
def text (e : Expr) : String :=
  String.ofList e.chars

end Expr

end PeanoCalculus
