import Rucc.Pp.HideSets

/-!
# Tokens and macros

What the preprocessor works on: `token.rs`, `trace.rs` and the part of `macros.rs` that the expander reads, with the
lexer's token kinds and the spans and diagnostics they carry.
-/

namespace Rucc.Pp

open Base

/-- A half-open range of source. -/
structure Span where
  lo : ℕ
  hi : ℕ
  deriving DecidableEq

namespace Span

/-- A span with no position at all. -/
def DUMMY : Span := ⟨2^32 - 1, 2^32 - 1⟩

/-- Whether this is the span with no position. -/
def isDummy (span : Span) : Bool := span.lo = 2^32 - 1

/-- The smallest span covering both, ignoring dummies. -/
def join (span other : Span) : Span :=
  if span.isDummy then other
  else if other.isDummy then span
  else ⟨min span.lo other.lo, max span.hi other.hi⟩

end Span

/-- How bad a diagnostic is. -/
inductive Severity where
  | Note
  | Help
  | Warning
  | Error
  | Ice
  deriving DecidableEq

/-- One message, with the place it is about and the notes hanging off it. -/
structure Diagnostic where
  severity : Severity
  code : Option String
  message : String
  span : Span
  children : List (String × Span)

namespace Diagnostic

def error (message : String) (span : Span) (code : String) : Diagnostic := ⟨.Error, some code, message, span, []⟩

def warning (message : String) (span : Span) (code : String) : Diagnostic := ⟨.Warning, some code, message, span, []⟩

/-- Attaches a note. -/
def note (d : Diagnostic) (message : String) (span : Span) : Diagnostic :=
  { d with children := d.children ++ [(message, span)] }

end Diagnostic

/-- A punctuator. -/
inductive Punct where
  | LBracket | RBracket | LParen | RParen | LBrace | RBrace | Dot | Ellipsis | Arrow | PlusPlus | MinusMinus
  | Amp | Star | Plus | Minus | Tilde | Bang | Slash | Percent | Shl | Shr | Lt | Gt | Le | Ge | EqEq | Ne
  | Caret | Pipe | AmpAmp | PipePipe | Question | Colon | ColonColon | Semi | Eq | StarEq | SlashEq | PercentEq
  | PlusEq | MinusEq | ShlEq | ShrEq | AmpEq | CaretEq | PipeEq | Comma | Hash | HashHash
  deriving DecidableEq

/-- The canonical spelling of a punctuator. -/
def Punct.asStr : Punct → String
  | .LBracket => "["
  | .RBracket => "]"
  | .LParen => "("
  | .RParen => ")"
  | .LBrace => "\x7b"
  | .RBrace => "\x7d"
  | .Dot => "."
  | .Ellipsis => "..."
  | .Arrow => "->"
  | .PlusPlus => "++"
  | .MinusMinus => "--"
  | .Amp => "&"
  | .Star => "*"
  | .Plus => "+"
  | .Minus => "-"
  | .Tilde => "~"
  | .Bang => "!"
  | .Slash => "/"
  | .Percent => "%"
  | .Shl => "<<"
  | .Shr => ">>"
  | .Lt => "<"
  | .Gt => ">"
  | .Le => "<="
  | .Ge => ">="
  | .EqEq => "=="
  | .Ne => "!="
  | .Caret => "^"
  | .Pipe => "|"
  | .AmpAmp => "&&"
  | .PipePipe => "||"
  | .Question => "?"
  | .Colon => ":"
  | .ColonColon => "::"
  | .Semi => ";"
  | .Eq => "="
  | .StarEq => "*="
  | .SlashEq => "/="
  | .PercentEq => "%="
  | .PlusEq => "+="
  | .MinusEq => "-="
  | .ShlEq => "<<="
  | .ShrEq => ">>="
  | .AmpEq => "&="
  | .CaretEq => "^="
  | .PipeEq => "|="
  | .Comma => ","
  | .Hash => "#"
  | .HashHash => "##"

/-- What kind of token this is. -/
inductive PpTokenKind where
  | Ident
  | Number
  | CharConst
  | StringLit
  | HeaderName
  | Punct (p : Punct)
  | Other
  | Eof
  deriving DecidableEq

/-- Things about a token that its own bytes do not say. -/
structure TokenFlags where
  bits : BitVec 8
  deriving DecidableEq

namespace TokenFlags

def START_OF_LINE : TokenFlags := ⟨1⟩

def LEADING_SPACE : TokenFlags := ⟨2⟩

def EMPTY : TokenFlags := ⟨0⟩

/-- Whether every flag of another set is in this one. -/
def has (flags other : TokenFlags) : Bool := flags.bits &&& other.bits = other.bits

/-- This set with another one added. -/
def add (flags other : TokenFlags) : TokenFlags := ⟨flags.bits ||| other.bits⟩

end TokenFlags

/-- One preprocessing token of the lexer's. -/
structure PpToken where
  kind : PpTokenKind
  flags : TokenFlags
  value : Option Symbol
  span : Span
  deriving DecidableEq

/-! ## The chains of macros -/

/-- A place in a table of traces, which is zero for a token the user wrote. -/
abbrev TraceId := ℕ

/-- One macro traversed on the way from the user's text to a token. -/
structure Step where
  macroName : Symbol
  place : Span
  outer : TraceId

/-- The table of expansion traces: the step of a trace is one place below it. -/
structure Traces where
  steps : List Step

namespace Traces

/-- Records that a macro, invoked at a place, was reached from a trace. -/
def push (traces : Traces) (macroName : Symbol) (place : Span) (outer : TraceId) : TraceId × Traces :=
  if traces.steps.length + 1 < 2^32 then
    (traces.steps.length + 1, ⟨traces.steps ++ [⟨macroName, place, outer⟩]⟩)
  else (outer, traces)

/-- The steps of a chain from the innermost macro outwards, at most so many. -/
def chainFrom (traces : Traces) : ℕ → TraceId → List Step
  | 0, _ => []
  | _ + 1, 0 => []
  | rounds + 1, id + 1 =>
    match traces.steps[id]? with
    | some step => step :: chainFrom traces rounds step.outer
    | none => []

/-- The chain from the outermost macro inwards, which stops past 256 steps. -/
def chain (traces : Traces) (id : TraceId) : List Step := (traces.chainFrom 257 id).reverse

end Traces

/-! ## The expander's tokens -/

/-- A token in flight through macro expansion. -/
structure Tok where
  kind : PpTokenKind
  flags : TokenFlags
  value : Option Symbol
  span : Span
  /-- Where the outermost invocation that produced the token was written. -/
  expansion : Span
  /-- The macro names that must not expand the token again. -/
  hides : HideSet
  /-- The chain of macros the token came out of. -/
  trace : TraceId
  /-- An empty token, which an operator needs for an absent argument. -/
  placemarker : Bool
  deriving DecidableEq

namespace Tok

/-- A token straight from the lexer. -/
def new (pp : PpToken) : Tok := ⟨pp.kind, pp.flags, pp.value, pp.span, .DUMMY, .EMPTY, 0, false⟩

/-- The punctuator a token is. -/
def punct (tok : Tok) : Option Punct :=
  match tok.kind with
  | .Punct p => if tok.placemarker then none else some p
  | _ => none

/-- Whether a token is a punctuator. -/
def is (tok : Tok) (p : Punct) : Bool := tok.punct = some p

/-- The identifier a token is. -/
def ident (tok : Tok) : Option Symbol :=
  match tok.kind with
  | .Ident => tok.value
  | _ => none

/-- The span to report a diagnostic about a token at. -/
def reportSpan (tok : Tok) : Span := if tok.expansion.isDummy then tok.span else tok.expansion

/-- A placemarker at a place. -/
def placemarkerAt (span : Span) : Tok := ⟨.Other, .EMPTY, none, span, .DUMMY, .EMPTY, 0, true⟩

end Tok

/-! ## Macros -/

/-- A predefined macro whose value is a question rather than a replacement list. -/
inductive Builtin where
  | File
  | FileName
  | BaseFile
  | Line
  | IncludeLevel
  | Counter
  deriving DecidableEq

/-- A definition of a macro. One that takes no arguments has no parameters. -/
structure MacroDef where
  name : Symbol
  functionLike : Bool
  params : List Symbol
  variadic : Option Symbol
  body : List PpToken
  span : Span
  builtin : Option Builtin
  object : functionLike = false → params = [] ∧ variadic = none

namespace MacroDef

def isVariadic (m : MacroDef) : Bool := m.variadic.isSome

/-- How many arguments an invocation must supply at a minimum. -/
def arity (m : MacroDef) : ℕ := m.params.length

/-- The parameter a name refers to, with the variadic one past the named ones. -/
def paramIndex (m : MacroDef) (name : Symbol) : Option ℕ :=
  if name ∈ m.params then some (m.params.idxOf name)
  else if m.variadic = some name then some m.params.length
  else none

def isVariadicParam (m : MacroDef) (name : Symbol) : Bool := m.variadic = some name

end MacroDef

/-- Every macro currently defined: for each symbol one more than where its definition is, or zero. -/
structure MacroTable where
  slots : List ℕ
  defs : List (Option MacroDef)

/-- The definition of a name. An index past the definitions is a panic. -/
def MacroTable.lookup (macros : MacroTable) (name : Symbol) : Option (Option MacroDef) :=
  match macros.slots[name.raw]? with
  | some (place + 1) => macros.defs[place]?
  | _ => some none

end Rucc.Pp
