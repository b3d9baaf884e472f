import Aeterna.Plum.Expand

/-!
# The script interpreter of the shell

`userspace/plum/bash.rs`: scripts are executed line by line, and a line that opens a block looks for
its end in the lines that follow. A position in a script is the list of lines from there on, so that
`lines[i]` is the first of them and the index that a function returns is what is left.

What the interpreter calls outside the file is a parameter (`Shell`), and so is `expand_vars`. A run
notes the headers it slices and the texts it expands (`Event`); it has a result, or it stops at a
slice that panics, in an expansion, or when the fuel for nested calls is used up (`Halt`).
-/

namespace Aeterna.Plum

/-! ## Texts -/

/-- The byte offset of the first `pat`. -/
def find (pat : Text) : Text → Option ℕ
  | [] => if pat = [] then some 0 else none
  | c :: t => if pat.isPrefixOf (c :: t) then some 0 else (find pat t).map (c.utf8Size + ·)

/-- The first `n` bytes, if a character ends there. -/
def sliceTo : Text → ℕ → Option Text
  | _, 0 => some []
  | [], _ + 1 => none
  | c :: t, n + 1 =>
    if c.utf8Size ≤ n + 1 then (sliceTo t (n + 1 - c.utf8Size)).map (c :: ·) else none

/-- All but the first `n` bytes, if a character ends there. -/
def sliceFrom : Text → ℕ → Option Text
  | t, 0 => some t
  | [], _ + 1 => none
  | c :: t, n + 1 => if c.utf8Size ≤ n + 1 then sliceFrom t (n + 1 - c.utf8Size) else none

def splitWhitespace (t : Text) : List Text := (t.splitOnP isWhitespace).filter (· ≠ [])

def splitWord (t : Text) : Text × Text :=
  let t := trim t
  let word := t.takeWhile fun c => !isWhitespace c
  (word, (t.drop word.length).dropWhile isWhitespace)

def stripQuotes (t : Text) : Text :=
  let t := trim t
  let quotedBy (q : Char) : Bool := t.head? = some q && t.getLast? = some q && 2 ≤ t.length
  if quotedBy '"' || quotedBy '\'' then (t.drop 1).dropLast else t

def toI32 (n : ℤ) : ℤ := n.bmod (2 ^ 32)

/-- At most `n` pieces between semicolons. -/
def splitN : ℕ → Text → List Text
  | 0, _ => []
  | 1, t => [t]
  | n + 2, t =>
    match splitOnce [';'] t with
    | some (before, after) => before :: splitN (n + 1) after
    | none => [t]

/-! ## Runs -/

/-- What a run notes: a text that it expands, and a line whose header it slices. -/
inductive Event where
  | expand (v : Vars) (t : Text)
  | header (raw : Text)

/-- Why a run stops: a slice that panics, an expansion without a value, or no more fuel. -/
inductive Halt where
  | slice
  | expansion (e : Stop)
  | fuel
  deriving DecidableEq

structure Run (α : Type) where
  events : List Event
  result : Except Halt α

namespace Run

variable {α β : Type}

def halt (h : Halt) : Run α := ⟨[], .error h⟩

def bind (x : Run α) (f : α → Run β) : Run β :=
  match x.result with
  | .error h => ⟨x.events, .error h⟩
  | .ok a => ⟨x.events ++ (f a).events, (f a).result⟩

instance : Monad Run where
  pure a := ⟨[], .ok a⟩
  bind := bind

end Run

/-- The header of a line, which panics where it has no slice. -/
def header {α : Type} (raw : Text) : Option α → Run α
  | some a => ⟨[.header raw], .ok a⟩
  | none => ⟨[.header raw], .error .slice⟩

/-! ## States -/

/-- The lines of a script from some position on. -/
abbrev Lines := List Text

structure ExecState (Env : Type) where
  env : Env
  locals : Text → Option Text
  functions : Text → Option (List Text)
  exitCode : ℤ
  exitRequested : Bool
  returnCode : Option ℤ

structure Shell (Env : Type) where
  lowercase : Text → Text
  expand : Vars → Text → Eval Text
  getenv : Env → Text → Option Text
  setenv : Env → Text → Text → Env
  preprocess : Env → Text → Env
  fileExists : Env → Text → Bool

section Interpreter

variable {Env : Type} (sh : Shell Env)

def ExecState.new (env : Env) : ExecState Env :=
  ⟨env, fun _ => none, fun _ => none, 0, false, none⟩

def setVar (s : ExecState Env) (name value : Text) : ExecState Env :=
  { s with
    locals := fun n => if n = name then some value else s.locals n
    env := sh.setenv s.env name value }

def expandIn (s : ExecState Env) (t : Text) : Run Text :=
  let v : Vars := ⟨s.locals, sh.getenv s.env, s.exitCode⟩
  ⟨[.expand v t], (sh.expand v t).mapError .expansion⟩

/-! ## Conditions -/

/-- A comparison of two numbers, with its operator. -/
def comparisons : List (Text × (ℤ → ℤ → Bool)) :=
  [(" -eq ".toList, (· == ·)), (" -ne ".toList, (· != ·)), (" -lt ".toList, (· < ·)),
    (" -le ".toList, (· ≤ ·)), (" -gt ".toList, (· > ·)), (" -ge ".toList, (· ≥ ·))]

/-- The text of a test without its brackets. -/
def unbracket (cond : Text) : Text :=
  if cond.head? = some '[' ∧ cond.getLast? = some ']' then
    trim (((cond.dropWhile (· == '[')).reverse.dropWhile (· == ']')).reverse)
  else cond

/-- What a test without brackets compares. -/
inductive Test where
  | one (t : Text) (check : Text → Bool)
  | two (a b : Text) (check : Text → Text → Bool)
  | done (b : Bool)

/-- The tests of `eval_condition`, in their order. -/
def parseTest (fileExists : Text → Bool) (inner : Text) : Test :=
  if "-z ".toList.isPrefixOf inner then .one (inner.drop 3) fun v => v.isEmpty
  else if "-n ".toList.isPrefixOf inner then .one (inner.drop 3) fun v => !v.isEmpty
  else if "-f ".toList.isPrefixOf inner || "-d ".toList.isPrefixOf inner ||
      "-e ".toList.isPrefixOf inner then .one (inner.drop 3) fileExists
  else if let some (a, b) := splitOnce " == ".toList inner then .two a b (· == ·)
  else if let some (a, b) := splitOnce " = ".toList inner then .two a b (· == ·)
  else if let some (a, b) := splitOnce " != ".toList inner then .two a b (· != ·)
  else
    match comparisons.findSome? fun (op, test) =>
      (splitOnce op inner).map fun (a, b) =>
        test ((parseInt (trim a)).getD 0) ((parseInt (trim b)).getD 0) with
    | some b => .done b
    | none => .done (inner ≠ [] && inner ≠ ['0'] && inner ≠ "false".toList)

def evalCondition (s : ExecState Env) (cond : Text) : Run Bool :=
  let cond := trim cond
  if cond = [] then pure false
  else
    match parseTest (sh.fileExists s.env) (unbracket cond) with
    | .one t check => do
      let t ← expandIn sh s (trim t)
      return check (stripQuotes t)
    | .two a b check => do
      let a ← expandIn sh s (trim a)
      let b ← expandIn sh s (trim b)
      return check (stripQuotes a) (stripQuotes b)
    | .done b => pure b

/-! ## Commands -/

/-- `fuel` bounds the nesting of the calls. -/
def execCommand : ℕ → Text → ExecState Env → Run (ExecState Env)
  | 0, _, _ => .halt .fuel
  | fuel + 1, cmd, s =>
    if ';' ∈ cmd then
      (splitN 32 cmd).foldlM (fun s part =>
        if trim part = [] then pure s else execCommand fuel (trim part) s) s
    else if "local ".toList.isPrefixOf cmd then
      match splitOnce ['='] (trim (cmd.drop 6)) with
      | some (name, value) => pure (setVar sh s name (stripQuotes value))
      | none => pure s
    else pure { s with env := sh.preprocess s.env cmd }

/-! ## Looking for the end of a block -/

/-- The text of a line, as the searches compare it. -/
def lowered (line : Text) : Text := sh.lowercase (trim line)

/-- Passes over the line after a header if it is, or ends in, the word that opens the block. -/
def skipHead (word : Text) (ends : List Text) : Lines → Lines
  | [] => []
  | line :: rest =>
    if lowered sh line = word ∨ ends.any fun e => e.isSuffixOf (lowered sh line) then rest
    else line :: rest

/-- The positions of the lines for a true and for a false condition, and what follows `fi`. -/
def scanIf : ℕ → Bool → Lines → List Lines × List Lines × Lines
  | _, _, [] => ([], [], [])
  | depth, inElse, line :: rest =>
    let l := lowered sh line
    let depth := if "if ".toList.isPrefixOf l ∨ l = "if".toList then depth + 1 else depth
    if l = "fi".toList ∧ depth - 1 = 0 then ([], [], rest)
    else
      let depth := if l = "fi".toList then depth - 1 else depth
      if depth = 1 ∧ l = "else".toList then scanIf depth true rest
      else
        let inElse := inElse || (depth == 1 && "elif ".toList.isPrefixOf l)
        let (thenLines, elseLines, next) := scanIf depth inElse rest
        if inElse then (thenLines, (line :: rest) :: elseLines, next)
        else ((line :: rest) :: thenLines, elseLines, next)

def scanLoop : ℕ → Lines → Lines
  | _, [] => []
  | depth, line :: rest =>
    let l := lowered sh line
    let depth :=
      if "for ".toList.isPrefixOf l ∨ "while ".toList.isPrefixOf l then depth + 1 else depth
    if l = "done".toList then
      if depth - 1 = 0 then line :: rest else scanLoop (depth - 1) rest
    else scanLoop depth rest

def afterBrace : Lines → Lines
  | [] => []
  | line :: rest => if '{' ∈ line then rest else afterBrace rest

/-- The depth after the braces of a line, which are not looked at any more once it is zero. -/
def braceDepth : ℕ → Text → ℕ
  | depth, [] => depth
  | depth, c :: t =>
    if c = '{' then braceDepth (depth + 1) t
    else if c = '}' then if depth - 1 = 0 then 0 else braceDepth (depth - 1) t
    else braceDepth depth t

/-- The lines of a function body, and the position of the line that closes it. -/
def scanFunction : ℕ → Lines → List Text × Lines
  | _, [] => ([], [])
  | depth, line :: rest =>
    let depth := braceDepth depth (trim line)
    if depth = 0 then ([], line :: rest)
    else
      let (body, stop) := scanFunction depth rest
      (line :: body, stop)

/-! ## What a line is -/

def functionName (raw : Text) : Option Text :=
  if "function ".toList.isPrefixOf raw then
    let name := (splitWord (trim (raw.drop 9))).1
    if name = [] then none else some name
  else
    match splitOnce "()".toList raw with
    | none => none
    | some (before, _) =>
      let name := trim before
      if name = [] ∨ ' ' ∈ name then none else some name

/-- A text up to a word that is looked for in its lower-case copy. -/
def cutAt (word : Text) (t : Text) : Option Text :=
  match find word (sh.lowercase t) with
  | some pos => sliceTo t pos
  | none => some t

def ifText (raw : Text) : Option Text := do
  cutAt sh "; then".toList (trim (← sliceFrom raw 2))

def whileText (raw : Text) : Option Text := do
  cutAt sh "; do".toList (← sliceFrom raw 6)

/-- The variable of a `for` and the text of its items, if there is an `in` between them. -/
def forText (raw : Text) : Option (Option (Text × Text)) := do
  let (var, rest) := splitWord (trim (← sliceFrom raw 4))
  let (keyword, rest) := splitWord (trim rest)
  if sh.lowercase keyword ≠ "in".toList then return none
  return some (var, ← cutAt sh [';'] rest)

/-- The name of the variable and the value of an assignment. -/
def assignment (raw : Text) : Option (Text × Text) :=
  match splitOnce ['='] raw with
  | none => none
  | some (name, value) => if name ≠ [] ∧ name.all isNameChar then some (name, value) else none

def delimiters : List Text :=
  ["then", "else", "elif", "fi", "do", "done", "\x7b", "\x7d"].map String.toList

/-- What a line is; its header is `none` where a slice of it panics. -/
inductive Action where
  | skip
  | define (name : Text)
  | cond (text : Option Text)
  | whileLoop (text : Option Text)
  | forLoop (header : Option (Option (Text × Text)))
  | exit (arg : Option Text)
  | ret (arg : Option Text)
  | assign (name value : Text)
  | command

/-- The tests of `exec_line`, in their order. -/
def action (raw : Text) : Action :=
  let lower := trim (sh.lowercase raw)
  let starts (word : String) : Bool := word.toList.isPrefixOf lower
  if raw = [] ∨ raw.head? = some '#' then .skip
  else if let some name := functionName raw then .define name
  else if starts "if " ∨ lower = "if".toList ∨ starts "if[" then .cond (ifText sh raw)
  else if starts "while " then .whileLoop (whileText sh raw)
  else if starts "for " then .forLoop (forText sh raw)
  else if lower = "exit".toList ∨ starts "exit " then .exit (sliceFrom raw 4)
  else if lower = "return".toList ∨ starts "return " then .ret (sliceFrom raw 6)
  else if let some (name, value) := assignment raw then .assign name value
  else if lower ∈ delimiters then .skip
  else .command

/-! ## Blocks -/

/-- Executes lines, and returns the position after them. -/
abbrev Exec (Env : Type) := Lines → ExecState Env → Run (ExecState Env × Lines)

/-- Executes the lines at some positions, wherever each of them ends. -/
def runEach (exec : Exec Env) : List Lines → ExecState Env → Run (ExecState Env)
  | [], s => pure s
  | lines :: more, s => do
    let (s, _) ← exec lines s
    if s.exitRequested then return s else runEach exec more s

/-- Executes lines until `stop` of them are left; `fuel` bounds their number. -/
def runTo (exec : Exec Env) (stop : ℕ) : ℕ → Lines → ExecState Env → Run (ExecState Env)
  | 0, lines, s => if stop < lines.length then .halt .fuel else pure s
  | fuel + 1, lines, s =>
    if stop < lines.length then do
      let (s, lines) ← exec lines s
      if s.exitRequested then return s else runTo exec stop fuel lines s
    else pure s

def execIf (exec : Exec Env) (text : Text) (rest : Lines) (s : ExecState Env) :
    Run (ExecState Env × Lines) := do
  let cond ← expandIn sh s (trim text)
  let start := skipHead sh "then".toList ["; then".toList, ";then".toList] rest
  let (thenLines, elseLines, next) := scanIf sh 1 false start
  let s ← runEach exec (if ← evalCondition sh s cond then thenLines else elseLines) s
  return (s, next)

def forLoop (body : ExecState Env → Run (ExecState Env)) (var : Text) :
    List Text → ExecState Env → Run (ExecState Env)
  | [], s => pure s
  | item :: items, s => do
    let s ← body (setVar sh s var item)
    if s.exitRequested then return s else forLoop body var items s

def execFor (exec : Exec Env) (var text : Text) (rest : Lines) (s : ExecState Env) :
    Run (ExecState Env × Lines) := do
  let items ← expandIn sh s (trim text)
  let start := skipHead sh "do".toList ["; do".toList, ";do".toList] rest
  let stop := scanLoop sh 1 start
  let s ← forLoop sh (runTo exec stop.length start.length start) var (splitWhitespace items) s
  return (s, stop.tail)

def whileLoop (body : ExecState Env → Run (ExecState Env)) (text : Text) :
    ℕ → ExecState Env → Run (ExecState Env)
  | 0, s => pure s
  | iters + 1, s => do
    if ← evalCondition sh s (← expandIn sh s text) then
      let s ← body s
      if s.exitRequested then return s else whileLoop body text iters s
    else return s

def maxIters : ℕ := 10000

def execWhile (exec : Exec Env) (text : Text) (rest : Lines) (s : ExecState Env) :
    Run (ExecState Env × Lines) := do
  let start := skipHead sh "do".toList ["; do".toList] rest
  let stop := scanLoop sh 1 start
  let s ← whileLoop sh (runTo exec stop.length start.length start) text maxIters s
  return (s, stop.tail)

/-- Carries out what a line is; `exec` executes the lines of blocks. -/
def perform (exec : Exec Env) (line : Text) (rest : Lines) (s : ExecState Env) :
    Action → Run (ExecState Env × Lines)
  | .skip => pure (s, rest)
  | .define name =>
    let (body, stop) := scanFunction 1 (afterBrace (line :: rest))
    pure ({ s with functions := fun n => if n = name then some body else s.functions n }, stop.tail)
  | .cond text => do execIf sh exec (← header (trim line) text) rest s
  | .whileLoop text => do execWhile sh exec (← header (trim line) text) rest s
  | .forLoop text => do
    match ← header (trim line) text with
    | some (var, text) => execFor sh exec var text rest s
    | none => return (s, rest)
  | .exit arg => do
    let arg ← header (trim line) arg
    return ({ s with
      exitCode := toI32 ((parseInt (trim arg)).getD 0)
      exitRequested := true }, rest)
  | .ret arg => do
    let arg ← header (trim line) arg
    return ({ s with
      returnCode := some (toI32 ((parseInt (trim arg)).getD s.exitCode))
      exitRequested := true }, rest)
  | .assign name value => do
    let value ← expandIn sh s value
    return (setVar sh s name (stripQuotes value), rest)
  | .command => do
    let cmd ← expandIn sh s (trim line)
    let s ← if trim cmd = [] then pure s else execCommand sh ((trim cmd).length + 1) (trim cmd) s
    return (s, rest)

/-- `exec_line`: executes the first of the lines. `fuel` bounds the nesting of the calls. -/
def execLine : ℕ → Exec Env
  | 0, _, _ => .halt .fuel
  | fuel + 1, lines, s =>
    if s.exitRequested then pure (s, lines.tail)
    else
      match lines with
      | [] => .halt .slice
      | line :: rest => perform sh (execLine fuel) line rest s (action sh (trim line))

/-- The loop of `execute_code` over all lines. -/
def execScript (lines : Lines) (s : ExecState Env) : Run (ExecState Env) :=
  runTo (execLine sh lines.length) 0 lines.length lines s

end Interpreter

end Aeterna.Plum
