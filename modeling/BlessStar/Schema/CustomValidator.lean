import BlessStar.Gate.Lexer
import BlessStar.Schema.Types

/-!
# Custom validator expressions

The interpreter of `custom_validator.c`: the tokenizer, the recursive descent that
evaluates while it parses, and `bs_custom_validator_eval_expr`.
-/

namespace BlessStar.Schema.CustomValidator

open Lib.ByteString
open Gate (ch isBlank)

/-- `double`, with the C operations on it.  `strtod` gives the number and how many
bytes it read. -/
structure Doubles (ν : Type) where
  strtod : Bytes → ν × Nat
  ofInt : Int → ν
  ofFloat : Float → ν
  add : ν → ν → ν
  sub : ν → ν → ν
  neg : ν → ν
  eq : ν → ν → Bool
  lt : ν → ν → Bool
  le : ν → ν → Bool

/-- `token_kind_t`, with `num_val` where the kind has one. -/
inductive Token (ν : Type)
  | eof
  | number (x : ν)
  | string
  | true
  | false
  | value
  | lparen
  | rparen
  | plus
  | minus
  | eq
  | ne
  | gt
  | lt
  | ge
  | le
  | and
  | or
  | not
  | error

/-- `lexer_t`.  `strVal` is `cur.str_val`, with `none` for the indeterminate pointer
that `lexer_init` leaves there. -/
structure Lexer (ν : Type) where
  cur : Token ν
  strVal : Option Bytes
  pos : Bytes

/-- Why a call ends without a result: the behaviour of C is undefined, `*err` is set,
or the recursion is deeper than the fuel. -/
inductive Stop
  | undefined
  | syntaxError
  | fuel
  deriving DecidableEq

/-- `isdigit` in the C locale. -/
def isDigit (c : UInt8) : Bool := ch '0' ≤ c && c ≤ ch '9'

/-- `isalnum` in the C locale. -/
def isAlnum (c : UInt8) : Bool :=
  isDigit c || (ch 'a' ≤ c && c ≤ ch 'z') || (ch 'A' ≤ c && c ≤ ch 'Z')

section

variable {ν : Type}

/-- The operator that starts with `c`, and its length. -/
def operator (c : UInt8) (next : Option UInt8) : Option (Token ν × Nat) :=
  if c = ch '=' ∧ next = some (ch '=') then some (.eq, 2)
  else if c = ch '!' ∧ next = some (ch '=') then some (.ne, 2)
  else if c = ch '>' ∧ next = some (ch '=') then some (.ge, 2)
  else if c = ch '<' ∧ next = some (ch '=') then some (.le, 2)
  else if c = ch '&' ∧ next = some (ch '&') then some (.and, 2)
  else if c = ch '|' ∧ next = some (ch '|') then some (.or, 2)
  else if c = ch '(' then some (.lparen, 1)
  else if c = ch ')' then some (.rparen, 1)
  else if c = ch '+' then some (.plus, 1)
  else if c = ch '-' then some (.minus, 1)
  else if c = ch '>' then some (.gt, 1)
  else if c = ch '<' then some (.lt, 1)
  else if c = ch '!' then some (.not, 1)
  else none

/-- `word` stands at the head of `s`, and no letter or digit right behind it. -/
def isWord (word s : Bytes) : Bool :=
  s.take word.length = word && !(s.drop word.length).head?.any isAlnum

/-- The keyword at the head of `s`, and its length. -/
def keyword (s : Bytes) : Option (Token ν × Nat) :=
  if isWord (ascii "value") s then some (.value, 5)
  else if isWord (ascii "true") s then some (.true, 4)
  else if isWord (ascii "false") s then some (.false, 5)
  else none

variable (D : Doubles ν)

/-- The token that starts with `c`, other than a string literal, and its length. -/
def token (c : UInt8) (cs : Bytes) : Token ν × Nat :=
  if isDigit c || (c = ch '-' && cs.head?.any isDigit) then
    let num := D.strtod (c :: cs)
    if num.2 = 0 then (.error, 0) else (.number num.1, num.2)
  else
    match operator c cs.head? with
    | some op => op
    | none => (keyword (c :: cs)).getD (.error, 0)

/-- `lexer_advance`.  A string literal frees the `str_val` of the token before it. -/
def lexerAdvance (l : Lexer ν) : Except Stop (Lexer ν) :=
  match l.pos.dropWhile isBlank with
  | [] => .ok ⟨.eof, l.strVal, []⟩
  | c :: cs =>
      if c = ch '\'' then
        match l.strVal with
        | none => .error .undefined
        | some _ =>
            .ok ⟨.string, some (cs.takeWhile (· ≠ ch '\'')),
              (cs.dropWhile (· ≠ ch '\'')).drop 1⟩
      else .ok ⟨(token D c cs).1, l.strVal, (c :: cs).drop (token D c cs).2⟩

abbrev Eval (ν : Type) := Lexer ν → Except Stop (ν × Lexer ν)

/-- `1.0` or `0.0`. -/
def truth (b : Bool) : ν := D.ofInt (if b then 1 else 0)

/-- `x != 0.0`. -/
def isTrue (x : ν) : Bool := !D.eq x (D.ofInt 0)

def valueToNumber : Value → ν
  | .i32 n => D.ofInt n.toInt
  | .i64 n => D.ofInt n.toInt
  | .f64 x => D.ofFloat x
  | .bool b => truth D b
  | .str s => (D.strtod s).1
  | .null | .arr _ | .obj _ => D.ofInt 0

def valueToString : Value → Bytes
  | .str s => s
  | _ => []

def orOp : Token ν → Option (ν → ν → ν)
  | .or => some fun left right => truth D (isTrue D left || isTrue D right)
  | _ => none

def andOp : Token ν → Option (ν → ν → ν)
  | .and => some fun left right => truth D (isTrue D left && isTrue D right)
  | _ => none

def cmpOp : Token ν → Option (ν → ν → ν)
  | .eq => some fun left right => truth D (D.eq left right)
  | .ne => some fun left right => truth D (!D.eq left right)
  | .gt => some fun left right => truth D (D.lt right left)
  | .lt => some fun left right => truth D (D.lt left right)
  | .ge => some fun left right => truth D (D.le right left)
  | .le => some fun left right => truth D (D.le left right)
  | _ => none

def arithOp : Token ν → Option (ν → ν → ν)
  | .plus => some D.add
  | .minus => some D.sub
  | _ => none

/-- The loop of `eval_or`, `eval_and` and `eval_arith` over operands of one kind. -/
def leftLoop (op : Token ν → Option (ν → ν → ν)) (operand : Eval ν) :
    Nat → ν → Eval ν
  | 0, _, _ => .error .fuel
  | n + 1, left, l =>
      match op l.cur with
      | none => .ok (left, l)
      | some f => do
          let l ← lexerAdvance D l
          let (right, l) ← operand l
          leftLoop op operand n (f left right) l

def chained (op : Token ν → Option (ν → ν → ν)) (operand : Eval ν) (n : Nat)
    (l : Lexer ν) : Except Stop (ν × Lexer ν) := do
  let (left, l) ← operand l
  leftLoop D op operand n left l

variable (v : Value)

section

variable (expr : Eval ν)

def evalPrimary : Nat → Eval ν
  | 0, _ => .error .fuel
  | n + 1, l => do
      let next ← lexerAdvance D l
      match l.cur with
      | .number x => .ok (x, next)
      | .string => .ok (truth D (l.strVal = some (valueToString v)), next)
      | .true => .ok (D.ofInt 1, next)
      | .false => .ok (D.ofInt 0, next)
      | .value => .ok (valueToNumber D v, next)
      | .lparen =>
          let (inner, l) ← expr next
          match l.cur with
          | .rparen =>
              let next ← lexerAdvance D l
              .ok (inner, next)
          | _ => .error .syntaxError
      | .minus =>
          let (x, l) ← evalPrimary n next
          .ok (D.neg x, l)
      | _ => .error .syntaxError

def evalUnary : Nat → Eval ν
  | 0, _ => .error .fuel
  | n + 1, l =>
      match l.cur with
      | .not => do
          let next ← lexerAdvance D l
          let (inner, l) ← evalUnary n next
          .ok (truth D (!isTrue D inner), l)
      | _ => evalPrimary D v expr n l

def evalTerm (n : Nat) (l : Lexer ν) : Except Stop (ν × Lexer ν) := evalUnary D v expr n l

def evalArith (n : Nat) (l : Lexer ν) : Except Stop (ν × Lexer ν) :=
  chained D (arithOp D) (evalTerm D v expr n) n l

def evalCmp (n : Nat) (l : Lexer ν) : Except Stop (ν × Lexer ν) := do
  let (left, l) ← evalArith D v expr n l
  match cmpOp D l.cur with
  | none => .ok (left, l)
  | some f => do
      let l ← lexerAdvance D l
      let (right, l) ← evalArith D v expr n l
      .ok (f left right, l)

def evalAnd (n : Nat) (l : Lexer ν) : Except Stop (ν × Lexer ν) :=
  chained D (andOp D) (evalCmp D v expr n) n l

def evalOr (n : Nat) (l : Lexer ν) : Except Stop (ν × Lexer ν) :=
  chained D (orOp D) (evalAnd D v expr n) n l

end

/-- `eval_expr`, at a depth of parentheses below the fuel. -/
def evalExpr : Nat → Eval ν
  | 0, _ => .error .fuel
  | n + 1, l => evalOr D v (evalExpr n) n l

def lexerInit (expr : Bytes) : Lexer ν := ⟨.eof, none, expr⟩

/-- `bs_custom_validator_eval_expr`. -/
def evalText (n : Nat) (expr : Bytes) : Except Stop Int := do
  let l ← lexerAdvance D (lexerInit expr)
  match evalExpr D v n l with
  | .ok (result, l) =>
      match l.cur with
      | .eof => .ok (if isTrue D result then 1 else 0)
      | _ => .ok (-1)
  | .error .syntaxError => .ok (-1)
  | .error stop => .error stop

/-- The interpreter returns `rc`, however much more fuel it gets. -/
def Returns (expr : Bytes) (rc : Int) : Prop := ∃ n, ∀ m, n ≤ m → evalText D v m expr = .ok rc

end

end BlessStar.Schema.CustomValidator
