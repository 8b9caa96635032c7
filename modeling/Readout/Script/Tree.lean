import Readout.Script.Datum

/-!
# Script trees

A script is a list of statements. Statements are expressions too: a block has the value of its
last statement, and a branch the value of the block that was taken.
-/
namespace Readout.Script

inductive BinaryOp
  | add
  | sub
  | mul
  | div
  | rem
  | equal
  | unequal
  | less
  | atMost
  | greater
  | atLeast
deriving DecidableEq

mutual

inductive Expr
  | literal (d : Datum)
  | variable (name : String)
  | array (items : List Expr)
  | negate (e : Expr)
  | invert (e : Expr)
  | binary (op : BinaryOp) (left right : Expr)
  | both (left right : Expr)
  | either (left right : Expr)
  | range (first stop : Expr) (closed : Bool)
  | index (container place : Expr)
  | property (container : Expr) (name : String)
  | call (name : String) (arguments : List Expr)
  | statement (s : Stmt)

inductive Stmt
  | value (e : Expr)
  | declare (name : String) (e : Option Expr)
  /-- Assigns to a variable, or to the place inside of it that the indices lead to. -/
  | assign (name : String) (path : List Expr) (op : Option BinaryOp) (e : Expr)
  | branch (condition : Expr) (yes no : List Stmt)
  | block (body : List Stmt)
  /-- Repeats without an end if there is no condition. -/
  | cycle (condition : Option Expr) (body : List Stmt)
  | each (name : String) (items : Expr) (body : List Stmt)
  | raise (e : Option Expr)
  | stop
  | again
  | leave (e : Option Expr)

end

/-- Statements that end with a block need no semicolon. -/
def Stmt.endsWithBlock : Stmt → Bool
  | branch .. | block .. | .cycle .. | each .. => true
  | _ => false

end Readout.Script
