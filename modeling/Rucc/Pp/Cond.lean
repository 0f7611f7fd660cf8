import Rucc.Base.FloatText
import Rucc.Pp.Token

/-!
# The `#if` expression evaluator

`cond.rs`: the evaluator of the controlling expression of a `#if`, which climbs the precedences of the operators and
carries a flag for whether what it reads is evaluated. A branch that is not is still parsed but reports nothing.

The recursion is bounded by a counter of rounds, which `Cond.run` sets from the number of tokens.
-/

namespace Rucc.Pp.Cond

open Base (Symbol hexDigit)

variable {value : BitVec 64}

/-- A value in a `#if` expression: sixty-four bits, and whether they are read as unsigned. -/
structure Val where
  bits : BitVec 64
  unsigned : Bool
  deriving DecidableEq

namespace Val

def ZERO : Val := ⟨0, false⟩

def signed (v : BitVec 64) : Val := ⟨v, false⟩

def boolean (b : Bool) : Val := signed (if b then 1 else 0)

def isTrue (v : Val) : Bool := v.bits ≠ 0

end Val

/-- What the target makes of a character constant's value. -/
structure Chars where
  signed : Bool
  wideSigned : Bool
  wideWidth : ℕ

/-! ## The constants -/

/-- The digit a character is in a base of at most sixteen. -/
def toDigit (radix : ℕ) (c : Char) : Option ℕ := (hexDigit c).filter (· < radix)

/-- The base of an integer constant in lower case, and what is behind its mark. -/
def radixOf : List Char → ℕ × List Char
  | '0' :: 'x' :: rest => (16, rest)
  | '0' :: 'b' :: rest => (2, rest)
  | '0' :: c :: rest => if c.isDigit then (8, c :: rest) else (10, '0' :: c :: rest)
  | lower => (10, lower)

/-- The error about a text that is no integer constant. -/
def notInteger (text : List Char) : String := s!"`{String.ofList text}` is not an integer constant"

/-- Reads the suffix of an integer constant: whether it has a `u`. It stops at a third `l`. -/
def suffixOf (text : List Char) : List Char → ℕ → Bool → Except String Bool
  | [], _, seenU => .ok seenU
  | 'l' :: 'l' :: rest, longs, seenU =>
    if 2 < longs + 2 then .error (notInteger text) else suffixOf text rest (longs + 2) seenU
  | 'l' :: rest, longs, seenU =>
    if 2 < longs + 1 then .error (notInteger text) else suffixOf text rest (longs + 1) seenU
  | 'u' :: rest, longs, seenU => if seenU then .error (notInteger text) else suffixOf text rest longs true
  -- a bit-precise constant is just an integer here
  | 'w' :: 'b' :: rest, longs, seenU => suffixOf text rest longs seenU
  | 'z' :: rest, longs, seenU => suffixOf text rest longs seenU
  | c :: _, _, _ =>
    if c = '.' ∨ c = 'e' ∨ c = 'p' then .error "a floating constant cannot appear in a `#if` expression"
    else .error (notInteger text)

/-- The number some digits are in a base. -/
def numberOf (radix : ℕ) (body : List Char) : ℕ := body.foldl (fun n c => n * radix + (toDigit radix c).getD 0) 0

/-- Turns a preprocessing number into a value. -/
def parseInteger (text : List Char) : Except String Val := do
  let lower := (text.filter (· ≠ '\x27')).map Char.toLower
  let (radix, digits) := radixOf lower
  let body := digits.takeWhile fun c => (toDigit radix c).isSome
  let suffix := digits.dropWhile fun c => (toDigit radix c).isSome
  if body = [] then .error (notInteger text)
  else do
    let unsigned ← suffixOf text suffix 0 false
    let bits := numberOf radix body
    if bits < 2^64 then .ok ⟨BitVec.ofNat 64 bits, unsigned || 2^63 ≤ bits⟩
    else .error s!"`{String.ofList text}` does not fit in the widest integer type"

/-- The digits at the front of a text, at most so many, pushed behind a value. -/
def pushDigits (radix : ℕ) : ℕ → List Char → BitVec 64 → BitVec 64 × List Char
  | rounds + 1, c :: rest, value =>
    match toDigit radix c with
    | some digit => pushDigits radix rounds rest (value * BitVec.ofNat 64 radix + BitVec.ofNat 64 digit)
    | none => (value, c :: rest)
  | _, rest, value => (value, rest)

/-- The escape sequences of one character. -/
def simpleEscape (c : Char) : Option (BitVec 64) :=
  match c with
  | 'n' => some 10
  | 't' => some 9
  | 'r' => some 13
  | 'a' => some 7
  | 'b' => some 8
  | 'f' => some 12
  | 'v' => some 11
  | 'e' => some 27
  | '\x5c' | '\x27' | '"' | '?' | '(' | '[' | '\x7b' | '%' => some (BitVec.ofNat 64 c.toNat)
  | _ => none

/-- The value of a hexadecimal escape, past its letter. -/
def hexEscape (rest : List Char) : Except String (BitVec 64 × List Char) :=
  let read := pushDigits 16 rest.length rest 0
  if read.2.length < rest.length then .ok read else .error "`\\x` with no hexadecimal digits"

/-- The value of a universal character name of so many digits, past its letter. -/
def universalName (width : ℕ) (rest : List Char) : Except String (BitVec 64 × List Char) :=
  let read := pushDigits 16 width rest 0
  if read.2.length + width = rest.length then .ok read else .error "incomplete universal character name"

/-- Reads one escape sequence, with the backslash already consumed. -/
def escape : List Char → Except String (BitVec 64 × List Char)
  | [] => .error "incomplete escape sequence"
  | c :: rest =>
    match simpleEscape c, toDigit 8 c with
    | some byte, _ => .ok (byte, rest)
    -- up to three octal digits, with the one already read
    | none, some digit => .ok (pushDigits 8 2 rest (BitVec.ofNat 64 digit))
    | none, none =>
      if c = 'x' then hexEscape rest
      else if c = 'u' then universalName 4 rest
      else if c = 'U' then universalName 8 rest
      else .error s!"unknown escape sequence `\\{c}`"

theorem pushDigits_length (radix rounds : ℕ) (text : List Char) (value : BitVec 64) :
    (pushDigits radix rounds text value).2.length ≤ text.length := by
  induction rounds generalizing text value with
  | zero => simp [pushDigits]
  | succ rounds ih =>
    cases text with
    | nil => simp [pushDigits]
    | cons c rest =>
      simp only [pushDigits]
      split
      · exact (ih _ _).trans (by simp)
      · simp

theorem hexEscape_length {text left : List Char} (h : hexEscape text = .ok (value, left)) :
    left.length ≤ text.length := by
  simp only [hexEscape] at h
  split at h
  case isTrue hlt =>
    rw [Except.ok.inj h] at hlt
    exact hlt.le
  case isFalse => cases h

theorem universalName_length {width : ℕ} {text left : List Char}
    (h : universalName width text = .ok (value, left)) : left.length ≤ text.length := by
  simp only [universalName] at h
  split at h
  case isTrue hlen =>
    rw [Except.ok.inj h] at hlen
    exact hlen ▸ Nat.le_add_right _ _
  case isFalse => cases h

theorem escape_length {text left : List Char} (h : escape text = .ok (value, left)) :
    left.length < text.length := by
  cases text with
  | nil => simp [escape] at h
  | cons c rest =>
    refine Nat.lt_succ_of_le ?_
    simp only [escape] at h
    split at h
    · exact (Prod.mk.inj (Except.ok.inj h)).2 ▸ le_rfl
    · have hpush := pushDigits_length 8 2 rest (BitVec.ofNat 64 ‹ℕ›)
      rwa [Except.ok.inj h] at hpush
    · split_ifs at h
      · exact hexEscape_length h
      · exact universalName_length h
      · exact universalName_length h

/-- Packs one more character into the value of a constant, big end first. -/
def pushChar (value : BitVec 64) (count : ℕ) (scalar : BitVec 64) : BitVec 64 :=
  if count = 0 then scalar else value <<< 8 ||| scalar &&& 0xff

/-- The characters of a constant packed into a value, and how many they are. -/
def readChars (text : List Char) (value : BitVec 64) (count : ℕ) : Except String (BitVec 64 × ℕ) :=
  match text with
  | [] => .ok (value, count)
  | c :: rest =>
    if c = '\x5c' then
      match h : escape rest with
      | .error problem => .error problem
      | .ok (scalar, left) =>
        have := escape_length h
        readChars left (pushChar value count scalar) (count + 1)
    else readChars rest (pushChar value count (BitVec.ofNat 64 c.toNat)) (count + 1)
termination_by text.length
decreasing_by all_goals simp only [List.length_cons]; omega

/-- What is between the quotes of a character constant. -/
def charBody (text : List Char) : Option (List Char) :=
  match text.dropWhile (· ∈ ['L', 'u', 'U', '8']) with
  | '\x27' :: rest => if rest.getLast? = some '\x27' then some rest.dropLast else none
  | _ => none

/-- Turns a character constant into a value. -/
def parseChar (chars : Chars) (text : List Char) : Except String Val :=
  match charBody text with
  | none => .error s!"`{String.ofList text}` is not a character constant"
  | some body => do
    let (value, count) ← readChars body 0 0
    if count = 0 then .error "empty character constant"
    else if text.head? = some 'L' then
      let width := max 8 (min chars.wideWidth 64)
      let mask : BitVec 64 := BitVec.ofNat 64 (2^width - 1)
      let low := value &&& mask
      let negative := chars.wideSigned && decide (width < 64) && low.getLsbD (width - 1)
      .ok ⟨if negative then low ||| ~~~mask else low, false⟩
    else if text.head? ≠ some '\x27' then .ok ⟨value, false⟩
    else if count = 1 then
      .ok (.signed (if chars.signed then (value.setWidth 8).signExtend 64 else (value.setWidth 8).setWidth 64))
    else .ok (.signed ((value.setWidth 32).signExtend 64))

/-! ## The evaluator -/

/-- What the evaluator of one directive reads: the texts of the symbols, the line and the target's
characters. -/
structure Context where
  resolve : Symbol → List Char
  line : Span
  chars : Chars

/-- The tokens that are left and what was reported so far. The errors of branches that are not evaluated are not
reported. They are kept apart here, and nothing reads them. -/
structure Eval where
  rest : List Tok
  diagnostics : List Diagnostic
  unreported : List Diagnostic

namespace Eval

def peekPunct (s : Eval) : Option Punct := s.rest.head?.bind Tok.punct

/-- Goes past a token. -/
def advance (s : Eval) : Eval := { s with rest := s.rest.tail }

/-- Goes past a punctuator where it is next. -/
def eat (p : Punct) (s : Eval) : Option Eval := if s.peekPunct = some p then some s.advance else none

/-- Where an error about what is next is reported, which is the whole line where nothing is. -/
def span (line : Span) (s : Eval) : Span := (s.rest.head?.map Tok.reportSpan).getD line

/-- Reports an error found in a branch that is evaluated. -/
def report (d : Diagnostic) (live : Bool) (s : Eval) : Eval :=
  if live then { s with diagnostics := s.diagnostics ++ [d] } else { s with unreported := s.unreported ++ [d] }

def error (cx : Context) (message code : String) (live : Bool) (s : Eval) : Eval :=
  s.report (.error message (s.span cx.line) code) live

end Eval

/-- The precedence of a binary operator, where a higher one binds tighter. -/
def binaryOp : Punct → Option ℕ
  | .Comma => some 1
  | .PipePipe => some 2
  | .AmpAmp => some 3
  | .Pipe => some 4
  | .Caret => some 5
  | .Amp => some 6
  | .EqEq | .Ne => some 7
  | .Lt | .Gt | .Le | .Ge => some 8
  | .Shl | .Shr => some 9
  | .Plus | .Minus => some 10
  | .Star | .Slash | .Percent => some 11
  | _ => none

/-- A shift, whose type is that of its left operand. A count of the width or more shifts everything out. -/
def shift (op : Punct) (lhs rhs : Val) : Val :=
  if ¬ rhs.unsigned ∧ rhs.bits.msb then .ZERO
  else
    let count := rhs.bits.toNat
    let out : BitVec 64 :=
      if 64 ≤ count then if op = .Shl ∨ lhs.unsigned ∨ ¬ lhs.bits.msb then 0 else -1
      else if op = .Shl then lhs.bits <<< count
      else if lhs.unsigned then lhs.bits >>> count
      else lhs.bits.sshiftRight count
    ⟨out, lhs.unsigned⟩

/-- The value of a binary operator. It is nothing for a division by zero. -/
def applied (op : Punct) (lhs rhs : Val) : Option Val :=
  -- either side unsigned makes the operation unsigned
  let unsigned := lhs.unsigned || rhs.unsigned
  let a := lhs.bits
  let b := rhs.bits
  match op with
  | .Star => some ⟨a * b, unsigned⟩
  | .Slash => if b = 0 then none else some ⟨if unsigned then a / b else a.sdiv b, unsigned⟩
  | .Percent => if b = 0 then none else some ⟨if unsigned then a % b else a.srem b, unsigned⟩
  | .Plus => some ⟨a + b, unsigned⟩
  | .Minus => some ⟨a - b, unsigned⟩
  | .Shl | .Shr => some (shift op lhs rhs)
  | .Lt => some (.boolean (if unsigned then a.ult b else a.slt b))
  | .Gt => some (.boolean (if unsigned then b.ult a else b.slt a))
  | .Le => some (.boolean (if unsigned then a.ule b else a.sle b))
  | .Ge => some (.boolean (if unsigned then b.ule a else b.sle a))
  | .EqEq => some (.boolean (a = b))
  | .Ne => some (.boolean (a ≠ b))
  | .Amp => some ⟨a &&& b, unsigned⟩
  | .Caret => some ⟨a ^^^ b, unsigned⟩
  | .Pipe => some ⟨a ||| b, unsigned⟩
  | .AmpAmp => some (.boolean (lhs.isTrue && rhs.isTrue))
  | .PipePipe => some (.boolean (lhs.isTrue || rhs.isTrue))
  | .Comma => some rhs
  | _ => some .ZERO

/-- The text of a token that has one. -/
def Context.text (cx : Context) (tok : Tok) : List Char := (tok.value.map cx.resolve).getD []

variable (cx : Context)

def apply (op : Punct) (lhs rhs : Val) (live : Bool) (s : Eval) : Val × Eval :=
  match applied op lhs rhs with
  | some v => (v, s)
  | none => (.ZERO, s.error cx "division by zero in a `#if` expression" "E0326" live)

/-- A constant that was read, or an error about it. -/
def constant (read : Except String Val) (tok : Tok) (code : String) (live : Bool) (s : Eval) : Val × Eval :=
  match read with
  | .ok v => (v, s)
  | .error problem => (.ZERO, s.report (.error problem tok.reportSpan code) live)

def number (tok : Tok) : Bool → Eval → Val × Eval := constant (parseInteger (cx.text tok)) tok "E0324"

def charConst (tok : Tok) : Bool → Eval → Val × Eval := constant (parseChar cx.chars (cx.text tok)) tok "E0325"

/-- An operand that is one token. A name that survived expansion is zero, apart from `true`. -/
def operand (tok : Tok) (live : Bool) (s : Eval) : Val × Eval :=
  match tok.kind with
  | .Number => number cx tok live s.advance
  | .CharConst => charConst cx tok live s.advance
  | .Ident => (if cx.text tok = "true".toList then .signed 1 else .ZERO, s.advance)
  | _ => (.ZERO, (s.error cx "expected a value in a `#if` expression" "E0323" live).advance)

/-- Whether the right side of an operator is evaluated. -/
def rightLive (op : Punct) (lhs : Val) (live : Bool) : Bool :=
  match op with
  | .AmpAmp => live && lhs.isTrue
  | .PipePipe => live && !lhs.isTrue
  | _ => live

/-- What a conditional expression is: the value of one arm, unsigned where either is. -/
def chosen (cond yes otherwise : Val) : Val :=
  { (if cond.isTrue then yes else otherwise) with unsigned := yes.unsigned || otherwise.unsigned }

mutual

/-- `a ? b : c`, where both arms are parsed and one of them is evaluated. -/
def conditional : ℕ → Bool → Eval → Option (Val × Eval)
  | 0, _, _ => none
  | fuel + 1, live, s => do
    let (cond, s) ← binary fuel 0 live s
    match s.eat .Question with
    | none => some (cond, s)
    | some s => do
      let (yes, s) ← conditional fuel (live && cond.isTrue) s
      match s.eat .Colon with
      | none => some (.ZERO, s.error cx "expected `:` in a conditional expression" "E0322" live)
      | some s => do
        let (otherwise, s) ← conditional fuel (live && !cond.isTrue) s
        some (chosen cond yes otherwise, s)

/-- Precedence climbing over the binary operators. -/
def binary : ℕ → ℕ → Bool → Eval → Option (Val × Eval)
  | 0, _, _, _ => none
  | fuel + 1, least, live, s => do
    let (lhs, s) ← unary fuel live s
    climb fuel least live lhs s

/-- The loop of `binary`, with its left side read. -/
def climb : ℕ → ℕ → Bool → Val → Eval → Option (Val × Eval)
  | 0, _, _, _, _ => none
  | fuel + 1, least, live, lhs, s =>
    match s.peekPunct.bind fun p => (binaryOp p).map (p, ·) with
    | none => some (lhs, s)
    | some (punct, prec) =>
      if prec < least then some (lhs, s)
      else do
        let (rhs, s) ← binary fuel (prec + 1) (rightLive punct lhs live) s.advance
        let (lhs, s) := apply cx punct lhs rhs live s
        climb fuel least live lhs s

def unary : ℕ → Bool → Eval → Option (Val × Eval)
  | 0, _, _ => none
  | fuel + 1, live, s =>
    match s.rest with
    | [] => some (.ZERO, s.error cx "expected a value in a `#if` expression" "E0323" live)
    | tok :: _ =>
      match tok.punct with
      | some .Plus => unary fuel live s.advance
      | some .Minus => do
        let (v, s) ← unary fuel live s.advance
        some ({ v with bits := -v.bits }, s)
      | some .Tilde => do
        let (v, s) ← unary fuel live s.advance
        some ({ v with bits := ~~~v.bits }, s)
      | some .Bang => do
        let (v, s) ← unary fuel live s.advance
        some (.boolean !v.isTrue, s)
      | some .LParen => do
        let (v, s) ← conditional fuel live s.advance
        match s.eat .RParen with
        | some s => some (v, s)
        | none => some (v, s.error cx "expected `)`" "E0322" live)
      | _ => some (operand cx tok live s)

end

/-- The evaluator of one directive, which `what` names: the value, and nothing for an empty line. -/
def run (what : String) (tokens : List Tok) (diagnostics : List Diagnostic) : Option (Option Val × Eval) :=
  match tokens with
  | [] => some (none, ⟨[], diagnostics ++ [.error s!"`{what}` with no expression" cx.line "E0320"], []⟩)
  | _ => do
    let (value, s) ← conditional cx (3 * tokens.length + 3) true ⟨tokens, diagnostics, []⟩
    match s.rest with
    | [] => some (some value, s)
    | _ => some (some value, s.error cx s!"extra tokens after the `{what}` expression" "E0321" true)

/-- Whether the branch of a `#if` is taken. -/
def evaluate (tokens : List Tok) (diagnostics : List Diagnostic) : Option (Bool × List Diagnostic) :=
  (run cx "#if" tokens diagnostics).map fun (value, s) => (value.any Val.isTrue, s.diagnostics)

end Rucc.Pp.Cond
