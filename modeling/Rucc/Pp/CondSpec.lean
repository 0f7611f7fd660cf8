import Rucc.Lex.NumberSpelling
import Rucc.Pp.Cond

/-!
# Controlling expressions

What C says a controlling expression is and what it is worth: the expressions of its grammar over the tokens they are
written with, the type of each, which is `intmax_t` or `uintmax_t`, and its value, where it has one. The grammar is that
of an `expression` without the assignments. A conditional expression binds tighter than a comma, its middle operand is
any expression and its last one is conditional.
-/

namespace Rucc.Pp.Cond

inductive UnOp where
  | plus
  | minus
  | tilde
  | bang
  deriving DecidableEq

inductive BinOp where
  | comma
  | pipePipe
  | ampAmp
  | pipe
  | caret
  | amp
  | eqEq
  | ne
  | lt
  | gt
  | le
  | ge
  | shl
  | shr
  | plus
  | minus
  | star
  | slash
  | percent
  deriving DecidableEq

def UnOp.punct : UnOp → Punct
  | plus => .Plus
  | minus => .Minus
  | tilde => .Tilde
  | bang => .Bang

namespace BinOp

def punct : BinOp → Punct
  | comma => .Comma
  | pipePipe => .PipePipe
  | ampAmp => .AmpAmp
  | pipe => .Pipe
  | caret => .Caret
  | amp => .Amp
  | eqEq => .EqEq
  | ne => .Ne
  | lt => .Lt
  | gt => .Gt
  | le => .Le
  | ge => .Ge
  | shl => .Shl
  | shr => .Shr
  | plus => .Plus
  | minus => .Minus
  | star => .Star
  | slash => .Slash
  | percent => .Percent

/-- The level of the grammar an operator is at, from the loosest to the tightest. Level one is that of `?:`. -/
def level : BinOp → ℕ
  | comma => 0
  | pipePipe => 2
  | ampAmp => 3
  | pipe => 4
  | caret => 5
  | amp => 6
  | eqEq | ne => 7
  | lt | gt | le | ge => 8
  | shl | shr => 9
  | plus | minus => 10
  | star | slash | percent => 11

/-- Whether the type of an operation is `uintmax_t`, given whether those of its operands are. -/
def isUnsigned (op : BinOp) (l r : Bool) : Bool :=
  match op with
  | comma => r
  | pipePipe | ampAmp | eqEq | ne | lt | gt | le | ge => false
  | shl | shr => l
  | _ => l || r

end BinOp

/-- An expression with the tokens it is written with. A constant has its value and whether its type is unsigned. -/
inductive Expr where
  | const (tok : Tok) (n : ℤ) (isUnsigned : Bool)
  | paren (opening : Tok) (e : Expr) (closing : Tok)
  | unary (op : UnOp) (tok : Tok) (e : Expr)
  | binary (op : BinOp) (l : Expr) (tok : Tok) (r : Expr)
  | cond (c : Expr) (question : Tok) (yes : Expr) (colon : Tok) (no : Expr)

namespace Expr

/-- The tokens of an expression, in order. -/
def toks : Expr → List Tok
  | const tok _ _ => [tok]
  | paren opening e closing => opening :: (e.toks ++ [closing])
  | unary _ tok e => tok :: e.toks
  | binary _ l tok r => l.toks ++ tok :: r.toks
  | cond c question yes colon no => c.toks ++ question :: (yes.toks ++ colon :: no.toks)

/-- The level of the grammar an expression is at. -/
def level : Expr → ℕ
  | const _ _ _ | paren _ _ _ => 13
  | unary _ _ _ => 12
  | binary op _ _ _ => op.level
  | cond _ _ _ _ _ => 1

/-- The expressions of C's grammar, over what the constants are. -/
def Wf (K : Tok → ℤ → Bool → Prop) : Expr → Prop
  | const tok n isUnsigned => K tok n isUnsigned
  | paren opening e closing => opening.punct = some .LParen ∧ e.Wf K ∧ closing.punct = some .RParen
  | unary op tok e => tok.punct = some op.punct ∧ e.Wf K ∧ 12 ≤ e.level
  | binary op l tok r => l.Wf K ∧ tok.punct = some op.punct ∧ r.Wf K ∧ op.level ≤ l.level ∧ op.level < r.level
  | cond c question yes colon no =>
    (c.Wf K ∧ question.punct = some .Question ∧ yes.Wf K ∧ colon.punct = some .Colon ∧ no.Wf K) ∧
      2 ≤ c.level ∧ 1 ≤ no.level

/-! ## Types and values -/

/-- Whether the type of an expression is `uintmax_t`. -/
def isUnsigned : Expr → Bool
  | const _ _ isUnsigned => isUnsigned
  | paren _ e _ => e.isUnsigned
  | unary .bang _ _ => false
  | unary _ _ e => e.isUnsigned
  | binary op l _ r => op.isUnsigned l.isUnsigned r.isUnsigned
  | cond _ _ yes _ no => yes.isUnsigned || no.isUnsigned

end Expr

/-- A value converted to a type. -/
def convert (isUnsigned : Bool) (n : ℤ) : ℤ := if isUnsigned then n % 2^64 else n

/-- The result of an operation in a type, which a signed one only has where it fits. -/
def inType (isUnsigned : Bool) (n : ℤ) : Option ℤ :=
  if isUnsigned then some (n % 2^64) else if -2^63 ≤ n ∧ n < 2^63 then some n else none

/-- The value with the bits of the representation of two values put together. -/
def bitwise (f : BitVec 64 → BitVec 64 → BitVec 64) (isUnsigned : Bool) (a b : ℤ) : ℤ :=
  let bits := f (BitVec.ofInt 64 a) (BitVec.ofInt 64 b)
  if isUnsigned then bits.toNat else bits.toInt

def truth (p : Prop) [Decidable p] : ℤ := if p then 1 else 0

/-- A shift of a value of a type, which has none for a count that is negative or the width or more, and to the left
none for a negative value. -/
def shifted (op : BinOp) (isUnsigned : Bool) (a count : ℤ) : Option ℤ :=
  if 0 ≤ count ∧ count < 64 then
    if op = .shr then some (a / 2^count.toNat)
    else if 0 ≤ a then inType isUnsigned (a * 2^count.toNat)
    else none
  else none

/-- The value of an operator over operands that are both evaluated, which are of the common type but for a shift. -/
def arith (op : BinOp) (isUnsigned : Bool) (a b : ℤ) : Option ℤ :=
  match op with
  | .star => inType isUnsigned (a * b)
  | .slash => if b = 0 then none else inType isUnsigned (a.tdiv b)
  -- the remainder has no value where the quotient has none
  | .percent => if b = 0 then none else (inType isUnsigned (a.tdiv b)).map fun _ => a.tmod b
  | .plus => inType isUnsigned (a + b)
  | .minus => inType isUnsigned (a - b)
  | .amp => some (bitwise (· &&& ·) isUnsigned a b)
  | .caret => some (bitwise (· ^^^ ·) isUnsigned a b)
  | .pipe => some (bitwise (· ||| ·) isUnsigned a b)
  | .eqEq => some (truth (a = b))
  | .ne => some (truth (a ≠ b))
  | .lt => some (truth (a < b))
  | .gt => some (truth (a > b))
  | .le => some (truth (a ≤ b))
  | .ge => some (truth (a ≥ b))
  | _ => none

namespace Expr

/-- The value C gives an expression. It is nothing where the behaviour is undefined. -/
def sem : Expr → Option ℤ
  | const _ n _ => some n
  | paren _ e _ => e.sem
  | unary op _ e => do
    let a ← e.sem
    match op with
    | .plus => some a
    | .minus => inType e.isUnsigned (-a)
    | .tilde => inType e.isUnsigned (-a - 1)
    | .bang => some (truth (a = 0))
  | binary op l _ r => do
    let a ← l.sem
    match op with
    | .comma => r.sem
    -- the right operand is only evaluated where the left one does not decide
    | .ampAmp => if a = 0 then some 0 else r.sem.map fun b => truth (b ≠ 0)
    | .pipePipe => if a ≠ 0 then some 1 else r.sem.map fun b => truth (b ≠ 0)
    | .shl | .shr => do
      let b ← r.sem
      shifted op l.isUnsigned a b
    | _ => do
      let b ← r.sem
      let isUnsigned := l.isUnsigned || r.isUnsigned
      arith op isUnsigned (convert isUnsigned a) (convert isUnsigned b)
  | cond c _ yes _ no => do
    let a ← c.sem
    (if a ≠ 0 then yes.sem else no.sem).map (convert (yes.isUnsigned || no.isUnsigned))

end Expr

/-! ## The constants -/

/-- The value of a value of the evaluator's. -/
def Val.toInt (v : Val) : ℤ := if v.unsigned then v.bits.toNat else v.bits.toInt

/-- What a token is as a constant. An integer constant is as the grammar says, and unsigned where it has a `u` or does
not fit `intmax_t`. The value of a character constant is the implementation's to say, and its type is signed without a
prefix and where `wchar_t` is. A name is zero, apart from `true`. -/
inductive Constant (cx : Context) : Tok → ℤ → Bool → Prop
  | number {tok : Tok} (s : Lex.Spelling) : tok.kind = .Number → cx.text tok = s.text → s.value < 2^64 →
      Constant cx tok s.value (s.ending.unsigned.isSome || decide (2^63 ≤ s.value))
  | char {tok : Tok} (v : Val) : tok.kind = .CharConst → parseChar cx.chars (cx.text tok) = .ok v →
      ((cx.text tok).head? = some '\x27' ∨ (cx.text tok).head? = some 'L' ∧ cx.chars.wideSigned = true) →
      Constant cx tok v.toInt false
  | name {tok : Tok} : tok.kind = .Ident →
      Constant cx tok (if cx.text tok = "true".toList then 1 else 0) false

/-- What the evaluator takes a token for as a constant. -/
def Accepted (cx : Context) (tok : Tok) (n : ℤ) (isUnsigned : Bool) : Prop :=
  ∃ v, (tok.kind = .Number ∧ parseInteger (cx.text tok) = .ok v ∨
      tok.kind = .CharConst ∧ parseChar cx.chars (cx.text tok) = .ok v ∨
      tok.kind = .Ident ∧ v = if cx.text tok = "true".toList then .signed 1 else .ZERO) ∧
    n = v.toInt ∧ isUnsigned = v.unsigned

end Rucc.Pp.Cond
