import Rucc.Pp.Token

/-!
# Macro expansion

The model of `expand.rs`: Prosser's algorithm with hide sets. The loop walks the pending tokens, whose front is the head
of the list here, and a replacement is put back on their front to be rescanned. A `none` is a panic, or a loop that has
not ended in the rounds it was given. What the source map, the prefix map and the lexer answer are functions of the
environment; the lists that are only kept for their room are left out.
-/

namespace Rucc.Pp

open Base

/-- How many tokens are looked at for one invocation that the user wrote. -/
def MAX_STEPS : ℕ := 2^24

/-- What a line of a condition asks of an expansion that an ordinary stretch of a file does not. -/
structure Condition where
  defined : Symbol
  report : Bool

/-- What an expansion reads and does not change. -/
structure Env where
  macros : MacroTable
  assembly : Bool
  condition : Option Condition
  /-- The name and the line a position is presented as being at. -/
  presumed : ℕ → Option (String × ℕ)
  /-- The includes a position is inside of, the innermost first. -/
  includeStack : ℕ → List Span
  prefixMap : String → String
  tokenize : String → Interner → List PpToken × Interner
  hash : String → BitVec 32

/-- What an expansion changes. -/
structure Run where
  hides : HideSets
  traces : Traces
  /-- The expansion being substituted right now. -/
  current : TraceId
  diagnostics : List Diagnostic
  interner : Interner
  counter : ℕ
  steps : ℕ

/-- A computation over the state of an expansion. -/
abbrev Expanding := StateT Run Option

/-- What expanding one argument gave: the argument as it was written, or anything else. -/
inductive Expanded where
  | Same
  | Made (toks : List Tok)

/-- The arguments of one invocation, one after another with where each ends, raw and expanded. -/
structure Args where
  toks : List Tok
  ends : List ℕ
  expanded : List (Option Expanded)
  outer : TraceId

namespace Args

/-- The argument list of an object-like macro, which has none. -/
def empty : Args := ⟨[], [], [], 0⟩

/-- The tokens of an argument as they were written. -/
def raw (args : Args) (idx : ℕ) : List Tok :=
  match args.ends[idx]? with
  | none => []
  | some stop =>
    let start := if idx = 0 then 0 else args.ends.getD (idx - 1) 0
    (args.toks.take stop).drop start

end Args

/-- A computation that expands arguments on the way. -/
abbrev Substituting := StateT Args Expanding

/-- The symbol of `__VA_OPT__`. -/
def VA_OPT : Symbol := ⟨12⟩

/-! ## Small steps -/

def contains (hides : HideSet) (name : Symbol) : Expanding Bool := fun r =>
  (r.hides.contains hides name).map fun answer => (answer, r)

def addHide (hides : HideSet) (name : Symbol) : Expanding HideSet := fun r =>
  (r.hides.add hides name).map fun (found, s) => (found, { r with hides := s })

def unionHides (a b : HideSet) : Expanding HideSet := fun r =>
  (r.hides.union a b).map fun (found, s) => (found, { r with hides := s })

def intersectHides (a b : HideSet) : Expanding HideSet := fun r =>
  (r.hides.intersect a b).map fun (found, s) => (found, { r with hides := s })

def pushTrace (name : Symbol) (place : Span) (outer : TraceId) : Expanding TraceId := fun r =>
  let (id, traces) := r.traces.push name place outer
  some (id, { r with traces })

def resolve (sym : Symbol) : Expanding String := fun r => (r.interner.resolve sym).map fun text => (text, r)

def intern (env : Env) (text : String) : Expanding Symbol := fun r =>
  (r.interner.intern env.hash text).map fun (sym, interner) => (sym, { r with interner })

def lookup (env : Env) (name : Symbol) : Expanding (Option MacroDef) := fun r =>
  (env.macros.lookup name).map fun found => (found, r)

def report (d : Diagnostic) : Expanding Unit := modify fun r => { r with diagnostics := r.diagnostics ++ [d] }

/-- The notes for a chain of macros, each at where the next thing in was written. -/
def notes : List Step → Span → Diagnostic → Expanding Diagnostic
  | [], _, d => pure d
  | step :: chain, innermost, d => do
    let name ← resolve step.macroName
    let place := (chain.head?.map Step.place).getD innermost
    notes chain innermost (d.note s!"expanded from macro `{name}`" place)

/-- Appends the chain of macros a trace records to a diagnostic, outermost first. -/
def inExpansions (d : Diagnostic) (trace : TraceId) (innermost : Span) : Expanding Diagnostic := do
  notes ((← get).traces.chain trace) innermost d

/-! ## Spellings -/

def doubleQuote : Char := Char.ofNat 34

def backslash : Char := Char.ofNat 92

/-- Text with a backslash before each backslash and each double quote. -/
def escaped (text : List Char) : List Char :=
  text.flatMap fun ch => if ch = backslash ∨ ch = doubleQuote then [backslash, ch] else [ch]

/-- A file name as a string literal. -/
def quoted (name : String) : String := String.ofList (doubleQuote :: escaped name.toList ++ [doubleQuote])

/-- The last component of a path. -/
def baseName (name : String) : String :=
  String.ofList (name.toList.reverse.takeWhile fun ch => ch ≠ '/' ∧ ch ≠ backslash).reverse

/-- A token's spelling. -/
def spell (tok : Tok) : Expanding String :=
  if tok.placemarker then pure ""
  else
    match tok.kind, tok.value with
    | .Punct p, _ => pure p.asStr
    | _, some sym => resolve sym
    | _, none => pure ""

/-- The rest of the string literal that tokens make, with whether one went before. -/
def stringizeFrom : Bool → List Tok → Expanding (List Char)
  | _, [] => pure []
  | first, tok :: toks => do
    if tok.placemarker then stringizeFrom first toks
    else
      let spelled ← spell tok
      let space := if !first && tok.flags.has .LEADING_SPACE then [' '] else []
      let text := if tok.kind = .StringLit ∨ tok.kind = .CharConst then escaped spelled.toList else spelled.toList
      let rest ← stringizeFrom false toks
      return space ++ text ++ rest

/-- The string literal that tokens make. -/
def stringize (toks : List Tok) : Expanding String := do
  let text ← stringizeFrom true toks
  return String.ofList (doubleQuote :: text ++ [doubleQuote])

/-- Stringized text as a token. -/
def stringToken (env : Env) (text : String) (span : Span) : Expanding Tok := do
  let sym ← intern env text
  return ⟨.StringLit, .EMPTY, some sym, span, .DUMMY, .EMPTY, 0, false⟩

/-- The flags that a replacement's first token inherits from the invocation. -/
def carriedSpacing (flags : TokenFlags) : TokenFlags :=
  let carried := if flags.has .START_OF_LINE then TokenFlags.EMPTY.add .START_OF_LINE else .EMPTY
  if flags.has .LEADING_SPACE then carried.add .LEADING_SPACE else carried

/-- What a body token substituted to, after what came before it: the first token takes the spacing of the token it
replaced, and a group that came to nothing leaves its spacing owed. -/
def emit (os value : List Tok) (source : Tok) (owed : Bool) : List Tok × Bool :=
  match value with
  | [] => (os, owed || source.flags.has .LEADING_SPACE)
  | first :: rest =>
    let flags := carriedSpacing source.flags
    let flags := if owed then flags.add .LEADING_SPACE else flags
    (os ++ { first with flags } :: rest, false)

/-- A token that stands for itself, after what came before it. -/
def emitPlain (os : List Tok) (tok : Tok) (owed : Bool) : List Tok × Bool :=
  (os ++ [if owed then { tok with flags := tok.flags.add .LEADING_SPACE } else tok], false)

/-- Removes placemarkers, handing any whitespace they carried to the next real token. -/
def dropPlacemarkers : Bool → List Tok → List Tok
  | _, [] => []
  | owed, tok :: toks =>
    if tok.placemarker then dropPlacemarkers (owed || tok.flags.has .LEADING_SPACE) toks
    else (if owed then { tok with flags := tok.flags.add .LEADING_SPACE } else tok) :: dropPlacemarkers false toks

/-- The rest of a parenthesised group: its contents, the parenthesis that closes it and what is after that. -/
def groupFrom : ℕ → List Tok → List Tok → Option (List Tok × Tok × List Tok)
  | _, _, [] => none
  | depth, inner, tok :: toks =>
    match tok.punct with
    | some .LParen => groupFrom (depth + 1) (inner ++ [tok]) toks
    | some .RParen =>
      if depth - 1 = 0 then some (inner, tok, toks) else groupFrom (depth - 1) (inner ++ [tok]) toks
    | _ => groupFrom depth (inner ++ [tok]) toks

/-- The parenthesised group after a `__VA_OPT__`. -/
def vaOptGroup : List Tok → Option (List Tok × Tok × List Tok)
  | tok :: toks => if tok.is .LParen then groupFrom 1 [] toks else none
  | [] => none

/-! ## Pasting -/

/-- Concatenates two spellings and re-lexes the result, which has to be exactly one token. -/
def paste (env : Env) (lhs rhs : Tok) (op : Span) : Expanding (Option Tok) := do
  let left ← spell lhs
  let right ← spell rhs
  let text := left ++ right
  let (tokens, interner) := env.tokenize text (← get).interner
  modify fun r => { r with interner }
  match tokens with
  | [token, last] =>
    if token.kind ≠ .Eof ∧ last.kind = .Eof ∧ token.span.lo = 0 ∧ token.span.hi = text.utf8ByteSize then
      let hides ← intersectHides lhs.hides rhs.hides
      return some ⟨token.kind, lhs.flags, token.value, lhs.span.join rhs.span, lhs.expansion, hides, lhs.trace, false⟩
    else invalid left right
  | _ => invalid left right
where
  /-- The result is not one token, which is an error but for assembly. -/
  invalid (left right : String) : Expanding (Option Tok) := do
    if env.assembly then return none
    let message := s!"pasting `{left}` and `{right}` does not give a valid preprocessing token"
    let d := Diagnostic.error message (lhs.reportSpan.join rhs.reportSpan) "E0313"
    let d := (d.note "the left operand is here" lhs.span).note "the right operand is here" rhs.span
    report (← inExpansions d (← get).current op)
    return none

/-- Pastes tokens onto the last one of what came before. -/
def glue (env : Env) (os rhs : List Tok) (span op : Span) : Expanding (List Tok) := do
  let rhs := if rhs.isEmpty then [Tok.placemarkerAt span] else rhs
  match os.getLast?, rhs with
  | some lhs, first :: rest =>
    if lhs.placemarker then return os.dropLast ++ rhs
    if first.placemarker then return os ++ rest
    match ← paste env lhs first op with
    | some joined => return os.dropLast ++ joined :: rest
    | none => return os ++ { first with flags := .EMPTY } :: rest
  | _, _ => return os ++ rhs

/-! ## Arguments -/

/-- Reads tokens up to the parenthesis that closes an argument list. With no such parenthesis there is no second
part. -/
def gather (m : MacroDef) : List Tok → ℕ → List Tok → List ℕ → Option (List Tok × List ℕ × Option (Tok × List Tok))
  | [], _, toks, ends => some (toks, ends, none)
  | tok :: pending, depth, toks, ends =>
    match tok.punct with
    | some .LParen => gather m pending (depth + 1) (toks ++ [tok]) ends
    | some .RParen =>
      if depth - 1 = 0 then some (toks, ends, some (tok, pending))
      else gather m pending (depth - 1) (toks ++ [tok]) ends
    | some .Comma =>
      if depth = 1 ∧ ¬ (m.isVariadic ∧ m.arity ≤ ends.length) then
        (u32 toks.length).bind fun stop => gather m pending depth toks (ends ++ [stop])
      else gather m pending depth (toks ++ [tok]) ends
    | _ => gather m pending depth (toks ++ [tok]) ends

/-- Reads an argument list, the pending tokens positioned on the opening parenthesis. -/
def collectArgs (m : MacroDef) (pending : List Tok) (name : Tok) : Expanding (Option (Args × Tok) × List Tok) := do
  match pending with
  | [] => failure
  | opening :: pending =>
    let (toks, ends, closing) ← (gather m pending 1 [] [] : Option _)
    match closing with
    | none =>
      let d := Diagnostic.error "unterminated macro argument list" opening.reportSpan "E0311"
      report (← inExpansions (d.note "this macro was invoked here" name.reportSpan) name.trace name.span)
      return (none, [])
    | some (rparen, pending) =>
      let stop ← (u32 toks.length : Option ℕ)
      let ends :=
        if ¬ (ends = [] ∧ toks = [] ∧ m.arity = 0 ∧ ¬ m.isVariadic) then ends ++ [stop] else ends
      let ends := if m.isVariadic ∧ ends.length = m.arity then ends ++ [stop] else ends
      let expected := m.arity + if m.isVariadic then 1 else 0
      if ends.length ≠ expected then
        let word := if ends.length < expected then "few" else "many"
        let more := if m.isVariadic then " or more" else ""
        let text ← resolve m.name
        let message := s!"too {word} arguments to macro `{text}`, expected {m.arity}{more}, got {ends.length}"
        let d := (Diagnostic.error message name.reportSpan "E0312").note "defined here" m.span
        report (← inExpansions d name.trace name.span)
        return (none, pending)
      else return (some (⟨toks, ends, List.replicate ends.length none, name.trace⟩, rparen), pending)

/-! ## The shortcut -/

/-- Whether the loop would give tokens back as they are, from some count of steps on: the count after them if it
would. -/
def passesFrom (env : Env) (hides : HideSets) (current : TraceId) : List Tok → ℕ → Option (Option ℕ)
  | [], steps => some (some steps)
  | tok :: toks, steps =>
    let steps := (if current = 0 ∧ tok.trace = 0 then 0 else steps) + 1
    if MAX_STEPS < steps then some none
    else
      match tok.ident with
      | none => passesFrom env hides current toks steps
      | some name =>
        if (env.condition.map Condition.defined) = some name then some none
        else
          (hides.contains tok.hides name).bind fun hidden =>
            if hidden then passesFrom env hides current toks steps
            else
              (env.macros.lookup name).bind fun found =>
                match found with
                | none => passesFrom env hides current toks steps
                | some m =>
                  if m.functionLike && m.builtin.isNone then
                    if (toks.head?.map fun next => next.is .LParen) = some true then some none
                    else passesFrom env hides current toks steps
                  else some none

/-- Whether the loop would give tokens back as they are, which counts the steps it would have counted. -/
def passesThrough (env : Env) (toks : List Tok) (current : TraceId) : Expanding Bool := fun r =>
  (passesFrom env r.hides current toks r.steps).map fun
    | some steps => (true, { r with steps })
    | none => (false, r)

/-! ## Substitution -/

section Substitution

variable (env : Env) (expand : List Tok → Expanding (List Tok)) (m : MacroDef)

/-- An argument after expansion, which is expanded once. -/
def expandedArg (idx : ℕ) : Substituting (List Tok) := do
  let args ← get
  match args.expanded[idx]? with
  | none => return []
  | some (some (.Made toks)) => return toks
  | some (some .Same) => return args.raw idx
  | some none =>
    if ← passesThrough env (args.raw idx) args.outer then
      set { args with expanded := args.expanded.set idx (some .Same) }
      return args.raw idx
    else
      let saved := (← (get : Expanding Run)).current
      modifyThe Run fun r => { r with current := args.outer }
      let toks ← expand (args.raw idx)
      modifyThe Run fun r => { r with current := saved }
      set { args with expanded := args.expanded.set idx (some (.Made toks)) }
      return toks

/-- Whether the variadic argument is empty once it has been expanded. -/
def noVariadicTokens : Substituting Bool := do
  if ((← get).raw m.arity).isEmpty then return true
  return (← expandedArg env expand m.arity).isEmpty

/-- Substitution with parameters replaced by their unexpanded arguments. -/
def substRaw (args : Args) (inner : List Tok) : List Tok :=
  inner.flatMap fun tok =>
    match tok.ident.bind m.paramIndex with
    | some idx => args.raw idx
    | none => [tok]

/-- `# parameter` and `# __VA_OPT__(...)`: what is put out and what is left of the list. -/
def hashOperand (tok : Tok) : List Tok → Substituting (Option (Tok × List Tok))
  | [] => return none
  | next :: after => do
    match next.ident.bind m.paramIndex with
    | some idx =>
      let text ← stringize ((← get).raw idx)
      return some (← stringToken env text (tok.span.join next.span), after)
    | none =>
      if next.ident = some VA_OPT then
        match vaOptGroup after with
        | none => return none
        | some (inner, close, after) =>
          let missing ← noVariadicTokens env expand m
          let args ← get
          let text ← stringize (if missing then [] else substRaw m args inner)
          return some (← stringToken env text (tok.span.join close.span), after)
      else return none

/-- What a `__VA_OPT__(...)` group stands for, given how a list is substituted. -/
def vaOptValue (subst : List Tok → Substituting (List Tok)) (inner : List Tok) (span : Span) :
    Substituting (List Tok) := do
  if ← noVariadicTokens env expand m then return [Tok.placemarkerAt span]
  let value ← subst inner
  return if value.isEmpty then [Tok.placemarkerAt span] else value

/-- The recursive half of substitution, from some token of a list on. -/
def substFrom : ℕ → List Tok → Bool → List Tok → Substituting (List Tok)
  | 0, _, _, _ => failure
  | _ + 1, os, _, [] => return os
  | rounds + 1, os, owed, tok :: rest => do
    let operand ← if m.functionLike && tok.is .Hash then hashOperand env expand m tok rest else pure none
    match operand with
    | some (string, rest) =>
      let (os, owed) := emit os [string] tok owed
      substFrom rounds os owed rest
    | none =>
    if tok.is .HashHash then
      match rest with
      | [] => failure
      | next :: after =>
        match next.ident.bind fun name => (m.paramIndex name).map fun idx => (name, idx) with
        | some (name, idx) =>
          let raw := (← get).raw idx
          if m.isVariadicParam name && (os.getLast?.map fun last => last.is .Comma) = some true then
            -- the paste drops the comma when there are no variable arguments, and does nothing when there are
            if raw.isEmpty then substFrom rounds os.dropLast false after
            else
              let (os, owed) := emit os raw next false
              substFrom rounds os owed after
          else substFrom rounds (← glue env os raw next.span tok.span) false after
        | none =>
          match if next.ident = some VA_OPT then vaOptGroup after else none with
          | some (inner, _, after) =>
            let rhs ← vaOptValue env expand m (substFrom rounds [] false) inner next.span
            substFrom rounds (← glue env os rhs next.span tok.span) false after
          | none => substFrom rounds (← glue env os [next] next.span tok.span) false after
    else
      match if tok.ident = some VA_OPT then vaOptGroup rest else none with
      | some (inner, _, after) =>
        let value ← vaOptValue env expand m (substFrom rounds [] false) inner tok.span
        let (os, owed) := emit os value tok owed
        substFrom rounds os owed after
      | none =>
        match tok.ident.bind m.paramIndex with
        | some idx =>
          if (rest.head?.map fun next => next.is .HashHash) = some true then
            let raw := (← get).raw idx
            let (os, owed) := emit os (if raw.isEmpty then [Tok.placemarkerAt tok.span] else raw) tok owed
            substFrom rounds os owed rest
          else
            let value ← expandedArg env expand idx
            let (os, owed) := emit os value tok owed
            substFrom rounds os owed rest
        | none =>
          let (os, owed) := emitPlain os tok owed
          substFrom rounds os owed rest

/-- The recursive half of substitution. -/
def substList (is : List Tok) : Substituting (List Tok) := substFrom env expand m (is.length + 1) [] false is

end Substitution

/-- What marking a run of tokens keeps: the steps made so far by the trace a token came with, the last one, and what the
last hide set asked about became. -/
structure Marks where
  made : List (TraceId × TraceId)
  last : TraceId × TraceId
  hidden : HideSet × HideSet

/-- Gives one token the hide set, the place and the chain it comes out of a substitution with. -/
def markOne (hs : HideSet) (invocation : Tok) (marks : Marks) (tok : Tok) : Expanding (Marks × Tok) := do
  let hidden ←
    if tok.hides ≠ marks.hidden.1 then (fun found => (tok.hides, found)) <$> unionHides tok.hides hs
    else pure marks.hidden
  let tok := { tok with hides := hidden.2, expansion := invocation.reportSpan }
  match invocation.ident with
  | none => return (⟨marks.made, marks.last, hidden⟩, tok)
  | some name =>
    if tok.trace = marks.last.1 then return (⟨marks.made, marks.last, hidden⟩, { tok with trace := marks.last.2 })
    else
      match marks.made.find? fun known => known.1 = tok.trace with
      | some known => return (⟨marks.made, known, hidden⟩, { tok with trace := known.2 })
      | none =>
        let id ← pushTrace name invocation.span tok.trace
        let made := if marks.made.length < 8 then marks.made ++ [(tok.trace, id)] else marks.made
        return (⟨made, (tok.trace, id), hidden⟩, { tok with trace := id })

def markFrom (hs : HideSet) (invocation : Tok) : Marks → List Tok → Expanding (List Tok)
  | _, [] => return []
  | marks, tok :: toks => do
    let (marks, tok) ← markOne hs invocation marks tok
    return tok :: (← markFrom hs invocation marks toks)

/-- Gives the tokens a substitution made the hide set, the place and the chain they come out of it with. -/
def mark (toks : List Tok) (hs : HideSet) (invocation : Tok) (here : TraceId) : Expanding (List Tok) :=
  markFrom hs invocation ⟨[(invocation.trace, here)], (invocation.trace, here), (.EMPTY, hs)⟩ toks

/-- Hands the spacing of an invocation that came to nothing on to the token rescanned after it. -/
def carrySpacing (pending : List Tok) (invocation : Tok) : List Tok :=
  match pending with
  | [] => []
  | next :: pending => { next with flags := next.flags.add (carriedSpacing invocation.flags) } :: pending

/-- The first token of a replacement takes the spacing of the invocation. -/
def spaced (toks : List Tok) (invocation : Tok) : List Tok :=
  match toks with
  | [] => []
  | first :: rest => { first with flags := carriedSpacing invocation.flags } :: rest

/-- Puts a replacement on the front of the pending tokens. -/
def pushFront (pending replacement : List Tok) (invocation : Tok) : List Tok :=
  if replacement.isEmpty then carrySpacing pending invocation else replacement ++ pending

/-- The tokens of a body, with the chain of the invocation. -/
def bodyToks (m : MacroDef) (invocation : Tok) : List Tok :=
  m.body.map fun t => { Tok.new t with trace := invocation.trace }

/-- Whether every token of a body comes through substitution as it is. -/
def MacroDef.plain (m : MacroDef) : Bool :=
  !m.functionLike && m.body.all fun t => t.kind ≠ .Punct .HashHash && !(t.kind = .Ident && t.value = some VA_OPT)

/-- The chain for everything an expansion produces. -/
def traceHere (invocation : Tok) : Expanding TraceId :=
  match invocation.ident with
  | some name => pushTrace name invocation.span invocation.trace
  | none => pure invocation.trace

/-- The body copied onto the front of the pending tokens. Its last token is the first of the new ones to be marked. -/
def copyOnto (m : MacroDef) (hs : HideSet) (invocation : Tok) (here : TraceId) (pending : List Tok) :
    Expanding (List Tok) := do
  let reversed ← mark (bodyToks m invocation).reverse hs invocation here
  if reversed.isEmpty then return carrySpacing pending invocation
  return spaced reversed.reverse invocation ++ pending

/-- The body substituted, and the result put on the front of the pending tokens. -/
def substituteOnto (env : Env) (expand : List Tok → Expanding (List Tok)) (m : MacroDef) (args : Args) (hs : HideSet)
    (invocation : Tok) (here : TraceId) (pending : List Tok) : Expanding (List Tok) := do
  let outer := (← get).current
  modify fun r => { r with current := here }
  let (os, _) ← (substList env expand m (bodyToks m invocation)).run args
  modify fun r => { r with current := outer }
  let os ← mark (dropPlacemarkers false os) hs invocation here
  return pushFront pending (spaced os invocation) invocation

/-- Argument substitution over a replacement list, put on the front of the pending tokens to be rescanned. -/
def substOnto (env : Env) (expand : List Tok → Expanding (List Tok)) (m : MacroDef) (args : Args) (hs : HideSet)
    (invocation : Tok) (pending : List Tok) : Expanding (List Tok) := do
  let here ← traceHere invocation
  if m.plain then copyOnto m hs invocation here pending
  else substituteOnto env expand m args hs invocation here pending

/-! ## The loop -/

/-- The file name a position is presented in. -/
def Env.nameOf (env : Env) (place : ℕ) : String := ((env.presumed place).map Prod.fst).getD "<unknown>"

/-- The file at the bottom of the include stack. -/
def Env.baseFile (env : Env) (place : ℕ) : String :=
  match (env.includeStack place).getLast? with
  | some outermost => env.nameOf outermost.lo
  | none => env.nameOf place

/-- What one of the builtin macros stands for at the place it was used. -/
def builtinValue (env : Env) (which : Builtin) (tok : Tok) : Expanding Tok := do
  let place := tok.reportSpan.lo
  let (kind, text) ← match which with
    | .File => pure (PpTokenKind.StringLit, quoted (env.prefixMap (env.nameOf place)))
    | .FileName => pure (.StringLit, quoted (baseName (env.nameOf place)))
    | .BaseFile => pure (.StringLit, quoted (env.prefixMap (env.baseFile place)))
    | .Line => pure (.Number, toString (((env.presumed place).map Prod.snd).getD 0))
    | .IncludeLevel => pure (.Number, toString (env.includeStack place).length)
    | .Counter => do
      let value := (← get).counter
      modify fun r => { r with counter := min (value + 1) (2^32 - 1) }
      pure (.Number, toString value)
  let sym ← intern env text
  return ⟨kind, tok.flags, some sym, tok.span, tok.expansion, tok.hides, tok.trace, false⟩

/-- Copies a `defined` and the name it asks about through untouched: what is still pending and what is put out. -/
def definedOperator (condition : Condition) (tok : Tok) (pending out : List Tok) :
    Expanding (List Tok × List Tok) := do
  if condition.report && tok.trace ≠ 0 then
    let d := Diagnostic.warning "this use of `defined` may not be portable" tok.reportSpan "W0334"
    report (← inExpansions d tok.trace tok.span)
  let out := out ++ [tok]
  match pending with
  | opening :: rest =>
    if opening.is .LParen then
      match rest with
      | operand :: close :: rest =>
        if close.is .RParen then return (rest, out ++ [opening, operand, close])
        else return (close :: rest, out ++ [opening, operand])
      | rest => return ([], out ++ opening :: rest)
    else return (rest, out ++ [opening])
  | [] => return ([], out)

/-- The main loop. -/
def expandFrom (env : Env) : ℕ → List Tok → List Tok → Expanding (List Tok)
  | 0, _, _ => failure
  | _ + 1, [], out => return out
  | rounds + 1, tok :: pending, out => do
    let r ← get
    let steps := (if r.current = 0 ∧ tok.trace = 0 then 0 else r.steps) + 1
    set { r with steps }
    if MAX_STEPS < steps then
      let d := Diagnostic.error "macro expansion is too large" tok.reportSpan "E0310"
      let d := d.note "expansion stopped here, the rest of the line is not expanded" tok.span
      report (← inExpansions d tok.trace tok.span)
      return out ++ tok :: pending
    match tok.ident with
    | none => expandFrom env rounds pending (out ++ [tok])
    | some name =>
    match env.condition.filter fun c => c.defined = name with
    | some condition =>
      let (pending, out) ← definedOperator condition tok pending out
      expandFrom env rounds pending out
    | none =>
    if ← contains tok.hides name then expandFrom env rounds pending (out ++ [tok])
    else
      match ← lookup env name with
      | none => expandFrom env rounds pending (out ++ [tok])
      | some m =>
        match m.builtin with
        | some which =>
          let value ← builtinValue env which tok
          expandFrom env rounds pending (out ++ [value])
        | none =>
          if !m.functionLike then
            let hs ← addHide tok.hides name
            let pending ← substOnto env (fun toks => expandFrom env rounds toks []) m .empty hs tok pending
            expandFrom env rounds pending out
          else if (pending.head?.map fun next => next.is .LParen) ≠ some true then
            expandFrom env rounds pending (out ++ [tok])
          else
            match ← collectArgs m pending tok with
            | (none, pending) => expandFrom env rounds pending (out ++ [tok])
            | (some (args, rparen), pending) =>
              let shared ← intersectHides tok.hides rparen.hides
              let hs ← addHide shared name
              let pending ← substOnto env (fun toks => expandFrom env rounds toks []) m args hs tok pending
              expandFrom env rounds pending out

end Rucc.Pp
