import BlessStar.Schema.CustomValidator

/-!
# The language of custom validators

The grammar at the head of `custom_validator.c`, with the unary minus that
`eval_primary` adds, as texts with white space between the tokens; what an
expression means over the integers and the strings; and how a text can differ
from what the tokenizer makes of it.
-/

namespace BlessStar.Schema.CustomValidator

open Lib.ByteString
open Gate (ch isBlank)

/-- The operators of `or_expr`, `and_expr` and `arith`. -/
inductive BinOp
  | or
  | and
  | plus
  | minus
  deriving DecidableEq

/-- The operators of `cmp_expr`. -/
inductive CmpOp
  | eq
  | ne
  | gt
  | lt
  | ge
  | le
  deriving DecidableEq

inductive Expr
  | num (n : Nat)
  | str (s : Bytes)
  | bool (b : Bool)
  | value
  | not (e : Expr)
  | neg (e : Expr)
  | bin (op : BinOp) (l r : Expr)
  | cmp (op : CmpOp) (l r : Expr)

/-- The symbols of the grammar, `term` being `unary`. -/
inductive Level
  | primary
  | unary
  | arith
  | cmp
  | and
  | or
  deriving DecidableEq

def BinOp.text : BinOp → Bytes
  | or => ascii "||"
  | and => ascii "&&"
  | plus => ascii "+"
  | minus => ascii "-"

def BinOp.level : BinOp → Level
  | or => .or
  | and => .and
  | plus | minus => .arith

def Level.operand : Level → Option Level
  | or => some and
  | and => some cmp
  | arith => some unary
  | _ => none

def CmpOp.text : CmpOp → Bytes
  | eq => ascii "=="
  | ne => ascii "!="
  | gt => ascii ">"
  | lt => ascii "<"
  | ge => ascii ">="
  | le => ascii "<="

def IsGap (g : Bytes) : Prop := ∀ c ∈ g, isBlank c = true

def IsNumeral (ds : Bytes) : Prop := ds ≠ [] ∧ ∀ c ∈ ds, isDigit c = true

def numberOf (ds : Bytes) : Nat := ds.foldl (fun n c => 10 * n + (c.toNat - 48)) 0

def boolText (b : Bool) : Bytes := if b then ascii "true" else ascii "false"

inductive Phrase
  | expr (lvl : Level) (e : Expr)
  | tail (lvl : Level) (left e : Expr)

inductive Spells : Phrase → Bytes → Prop
  | num {ds : Bytes} (hds : IsNumeral ds) : Spells (.expr .primary (.num (numberOf ds))) ds
  | str {s : Bytes} (hs : ch '\'' ∉ s) :
      Spells (.expr .primary (.str s)) (ch '\'' :: (s ++ [ch '\'']))
  | bool (b : Bool) : Spells (.expr .primary (.bool b)) (boolText b)
  | value : Spells (.expr .primary .value) (ascii "value")
  | paren {e : Expr} {g t g' : Bytes} (hg : IsGap g) (ht : Spells (.expr .or e) t)
      (hg' : IsGap g') : Spells (.expr .primary e) (ch '(' :: (g ++ (t ++ (g' ++ [ch ')']))))
  | primary {e : Expr} {t : Bytes} (ht : Spells (.expr .primary e) t) :
      Spells (.expr .unary e) t
  | not {e : Expr} {g t : Bytes} (hg : IsGap g) (ht : Spells (.expr .unary e) t) :
      Spells (.expr .unary (.not e)) (ch '!' :: (g ++ t))
  | neg {e : Expr} {g t : Bytes} (hg : IsGap g) (ht : Spells (.expr .unary e) t) :
      Spells (.expr .unary (.neg e)) (ch '-' :: (g ++ t))
  | chain {lvl lo : Level} {l e : Expr} {t u : Bytes} (hlo : lvl.operand = some lo)
      (ht : Spells (.expr lo l) t) (hu : Spells (.tail lvl l e) u) :
      Spells (.expr lvl e) (t ++ u)
  | last {lvl : Level} {e : Expr} : Spells (.tail lvl e e) []
  | more {op : BinOp} {lo : Level} {l r e : Expr} {g g' t u : Bytes}
      (hlo : op.level.operand = some lo) (hg : IsGap g) (hg' : IsGap g')
      (ht : Spells (.expr lo r) t) (hu : Spells (.tail op.level (.bin op l r) e) u) :
      Spells (.tail op.level l e) (g ++ (op.text ++ (g' ++ (t ++ u))))
  | arith {e : Expr} {t : Bytes} (ht : Spells (.expr .arith e) t) : Spells (.expr .cmp e) t
  | cmp {op : CmpOp} {l r : Expr} {t g g' u : Bytes} (hl : Spells (.expr .arith l) t)
      (hg : IsGap g) (hg' : IsGap g') (hr : Spells (.expr .arith r) u) :
      Spells (.expr .cmp (.cmp op l r)) (t ++ (g ++ (op.text ++ (g' ++ u))))

def Expr.IsText (e : Expr) (text : Bytes) : Prop :=
  ∃ g t g', IsGap g ∧ Spells (.expr .or e) t ∧ IsGap g' ∧ text = g ++ (t ++ g')

inductive Datum
  | int (n : Int)
  | text (s : Bytes)
  deriving DecidableEq

def Datum.int? : Datum → Option Int
  | int n => some n
  | text _ => none

def Datum.ofBool (b : Bool) : Datum := int (if b then 1 else 0)

/-- What `value` denotes, where it is an integer, a truth value or a string. -/
def valueDatum : Value → Option Datum
  | .i32 n => some (.int n.toInt)
  | .i64 n => some (.int n.toInt)
  | .bool b => some (.ofBool b)
  | .str s => some (.text s)
  | .null | .f64 _ | .arr _ | .obj _ => none

def BinOp.onInts : BinOp → Int → Int → Datum
  | or, m, n => .ofBool (m ≠ 0 || n ≠ 0)
  | and, m, n => .ofBool (m ≠ 0 && n ≠ 0)
  | plus, m, n => .int (m + n)
  | minus, m, n => .int (m - n)

def CmpOp.onInts : CmpOp → Int → Int → Bool
  | eq, m, n => m = n
  | ne, m, n => m ≠ n
  | gt, m, n => m > n
  | lt, m, n => m < n
  | ge, m, n => m ≥ n
  | le, m, n => m ≤ n

def CmpOp.onTexts : CmpOp → Bytes → Bytes → Option Bool
  | eq, s, t => some (s = t)
  | ne, s, t => some (s ≠ t)
  | _, _, _ => none

def CmpOp.onData (op : CmpOp) : Datum → Datum → Option Bool
  | .int m, .int n => some (op.onInts m n)
  | .text s, .text t => op.onTexts s t
  | _, _ => none

/-- What the expression denotes; only `==` and `!=` are for strings. -/
def Expr.meaning (v : Value) : Expr → Option Datum
  | .num n => some (.int n)
  | .str s => some (.text s)
  | .bool b => some (.ofBool b)
  | .value => valueDatum v
  | .not e => ((e.meaning v).bind Datum.int?).map fun n => .ofBool (n = 0)
  | .neg e => ((e.meaning v).bind Datum.int?).map fun n => .int (-n)
  | .bin op l r =>
      ((l.meaning v).bind Datum.int?).bind fun m =>
        ((r.meaning v).bind Datum.int?).map fun n => op.onInts m n
  | .cmp op l r =>
      (l.meaning v).bind fun a => (r.meaning v).bind fun b => (op.onData a b).map Datum.ofBool

def Expr.truthValue (v : Value) (e : Expr) : Option Bool :=
  ((e.meaning v).bind Datum.int?).map (· ≠ 0)

def HasQuote (text : Bytes) : Prop := ch '\'' ∈ text

def afterOperand (after : Bool) (c : UInt8) : Bool :=
  if isBlank c then after else isAlnum c || c = ch ')'

/-- Some `-` is not read as the operator that it is: behind an operand it stands right
before a digit, or it is the sign of a `!`. -/
def misread : Bool → Bytes → Bool
  | _, [] => false
  | after, c :: cs =>
      (c = ch '-' &&
        (if after then cs.head?.any isDigit else (cs.dropWhile isBlank).head? = some (ch '!'))) ||
      misread (afterOperand after c) cs

def fractionBytes : Bytes := ascii ".eExX"

/-- All numerals are integers, as far as the first string literal. -/
def integersOnly : Bytes → Bool
  | [] => true
  | c :: cs =>
      c = ch '\'' ||
        (!(isDigit c && cs.head?.any fun d => fractionBytes.contains d) && integersOnly cs)

section

variable {ν : Type} (D : Doubles ν)

def BinOp.onDoubles : BinOp → ν → ν → ν
  | or => fun x y => truth D (isTrue D x || isTrue D y)
  | and => fun x y => truth D (isTrue D x && isTrue D y)
  | plus => D.add
  | minus => D.sub

def CmpOp.onDoubles (op : CmpOp) (x y : ν) : Bool :=
  match op with
  | eq => D.eq x y
  | ne => !D.eq x y
  | gt => D.lt y x
  | lt => D.lt x y
  | ge => D.le y x
  | le => D.le x y

/-- The expression with its numbers and sums rounded to doubles, and the strings
turned into numbers. -/
def Expr.rounded (v : Value) : Expr → ν
  | .num n => D.ofInt n
  | .str s => truth D (s = valueToString v)
  | .bool b => truth D b
  | .value => valueToNumber D v
  | .not e => truth D (!isTrue D (e.rounded v))
  | .neg e => D.neg (e.rounded v)
  | .bin op l r => op.onDoubles D (l.rounded v) (r.rounded v)
  | .cmp op l r => truth D (op.onDoubles D (l.rounded v) (r.rounded v))

def Expr.RoundsWell (v : Value) (e : Expr) : Prop :=
  e.truthValue v = some (isTrue D (e.rounded D v))

/-- No number of the expression is beyond the integers that doubles hold exactly. -/
def Expr.IsSmall (v : Value) : Expr → Prop
  | .num n => n ≤ 2 ^ 53
  | .str _ | .bool _ => True
  | .value => ∀ n, valueDatum v = some (.int n) → n.natAbs ≤ 2 ^ 53
  | .not e | .neg e => e.IsSmall v
  | .bin op l r =>
      l.IsSmall v ∧ r.IsSmall v ∧
        ∀ n, (Expr.bin op l r).meaning v = some (.int n) → n.natAbs ≤ 2 ^ 53
  | .cmp _ l r => l.IsSmall v ∧ r.IsSmall v

def EndsNumeral (rest : Bytes) : Prop :=
  ∀ c, rest.head? = some c → isDigit c = false ∧ c ∉ fractionBytes

/-- `strtod` on a numeral of digits, with a sign or without: it reads all of it, and
rounds as a conversion does. -/
structure ReadsNumerals : Prop where
  plain : ∀ ds rest, IsNumeral ds → EndsNumeral rest →
    D.strtod (ds ++ rest) = (D.ofInt (numberOf ds), ds.length)
  signed : ∀ ds rest, IsNumeral ds → EndsNumeral rest →
    D.strtod (ch '-' :: (ds ++ rest)) = (D.neg (D.ofInt (numberOf ds)), ds.length + 1)

/-- Arithmetic on the integers that doubles hold exactly, where `rep x n` is that `x`
has the value `n`. -/
structure ExactIntegers (rep : ν → Int → Prop) : Prop where
  ofInt : ∀ {n : Int}, n.natAbs ≤ 2 ^ 53 → rep (D.ofInt n) n
  neg : ∀ {x n}, rep x n → rep (D.neg x) (-n)
  add : ∀ {x y m n}, rep x m → rep y n → (m + n).natAbs ≤ 2 ^ 53 → rep (D.add x y) (m + n)
  sub : ∀ {x y m n}, rep x m → rep y n → (m - n).natAbs ≤ 2 ^ 53 → rep (D.sub x y) (m - n)
  eq : ∀ {x y m n}, rep x m → rep y n → D.eq x y = decide (m = n)
  lt : ∀ {x y m n}, rep x m → rep y n → D.lt x y = decide (m < n)
  le : ∀ {x y m n}, rep x m → rep y n → D.le x y = decide (m ≤ n)

end

end BlessStar.Schema.CustomValidator
