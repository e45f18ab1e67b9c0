import ChannelLint.Json.Printer
import ChannelLint.Lint
import ChannelLint.Settings.Loader

/-!
# The command line

Options are read first: a long option may be cut short as long as it stays unambiguous, and short
options may be written together. The run then prints its diagnostics, and on the error channel what
it logged and a summary. The exit code tells whether there were errors.
-/
namespace ChannelLint

structure Options where
  root : String := "."
  config : Option String := none
  fix : Bool := false
  checkUsage : Bool := false
  json : Bool := false
  verbosity : Nat := 0
  deriving DecidableEq, Repr

namespace Options

inductive Flag where
  | help | root | config | fix | checkUsage | json | verbose
  deriving DecidableEq, Repr

/-- All spellings, in the order in which they are tried. -/
def spellings : List (String × Flag) :=
  [("-h", .help), ("--help", .help), ("--rootDir", .root), ("--lintConfig", .config),
    ("--fix", .fix), ("--checkUsage", .checkUsage), ("--json", .json), ("-v", .verbose),
    ("--verbose", .verbose)]

/-- The name of a flag in messages. -/
def Flag.name (f : Flag) : String :=
  "/".intercalate ((spellings.filter (·.2 == f)).map (·.1))

def Flag.takesValue : Flag → Bool
  | root | config => true
  | _ => false

inductive UsageFault where
  | ambiguous (argument : String) (matching : List String)
  | noValue (flag : Flag)
  | unusedValue (flag : Flag) (value : String)
  | unrecognized (arguments : List String)
  /-- Help was asked for. -/
  | help
  deriving DecidableEq, Repr

def UsageFault.message : UsageFault → String
  | ambiguous argument matching =>
    s!"ambiguous option: {argument} could match " ++ ", ".intercalate matching
  | noValue flag => s!"argument {flag.name}: expected one argument"
  | unusedValue flag value =>
    s!"argument {flag.name}: ignored explicit argument " ++ Text.quoted value
  | unrecognized arguments => "unrecognized arguments: " ++ " ".intercalate arguments
  | help => ""

/-- How a value is attached to an option: behind an equals sign, or directly. -/
structure Attached where
  isEquals : Bool
  value : String
  deriving DecidableEq, Repr

/-- What an argument is. -/
inductive Argument where
  | plain
  /-- `--`: everything behind it is plain. -/
  | divider
  | option (spelling : String) (flag : Flag) (attached : Option Attached)
  | unknown
  deriving DecidableEq, Repr

/-- The text in front of the first equals sign and, if there is one, the text behind it. -/
def splitEquals (s : String) : String × Option String :=
  let first := s.toList.takeWhile (· != '=')
  if first.length < s.length then
    (String.ofList first, some (String.ofList (s.toList.drop (first.length + 1))))
  else (s, none)

/-- The options that an argument may be short for. -/
def candidates (s : String) : List (String × Flag × Option Attached) :=
  if s.startsWith "--" then
    let (name, value) := splitEquals s
    (spellings.filter (·.1.startsWith name)).map fun (spelling, flag) =>
      (spelling, flag, value.map (⟨true, ·⟩))
  else
    let short := String.ofList (s.toList.take 2)
    let tail := String.ofList (s.toList.drop 2)
    spellings.filterMap fun (spelling, flag) =>
      if spelling == short then some (spelling, flag, some ⟨false, tail⟩)
      else if spelling.startsWith s then some (spelling, flag, none)
      else none

/-- Whether an argument is a negative number. -/
def isNegativeNumber (s : String) : Bool :=
  match s.toList with
  | '-' :: digits =>
    let whole := digits.takeWhile Text.isDecimalDigit
    match digits.drop whole.length with
    | [] => !whole.isEmpty
    | ['\n'] => !whole.isEmpty
    | '.' :: fraction =>
      let places := fraction.takeWhile Text.isDecimalDigit
      let rest := fraction.drop places.length
      !places.isEmpty && (rest.isEmpty || rest == ['\n'])
    | _ => false
  | _ => false

/-- Classifies an argument in front of a divider. -/
def classify (s : String) : Except UsageFault Argument :=
  if !s.startsWith "-" || s == "-" then .ok .plain
  else match spellings.lookup s with
    | some flag => .ok (.option s flag none)
    | none =>
      let (name, value) := splitEquals s
      match value, spellings.lookup name with
      | some value, some flag => .ok (.option name flag (some ⟨true, value⟩))
      | _, _ =>
        match candidates s with
        | [(spelling, flag, attached)] => .ok (.option spelling flag attached)
        | [] => .ok (if isNegativeNumber s || s.toList.contains ' ' then .plain else .unknown)
        | several => .error (.ambiguous s (several.map (·.1)))

def classifyAll : List String → Except UsageFault (List (String × Argument))
  | [] => .ok []
  | s :: rest =>
    if s == "--" then .ok ((s, .divider) :: rest.map (·, .plain))
    else do return (s, ← classify s) :: (← classifyAll rest)

def set (o : Options) (flag : Flag) (value : String) : Except UsageFault Options :=
  match flag with
  | .root => .ok { o with root := value }
  | .config => .ok { o with config := some value }
  | .fix => .ok { o with fix := true }
  | .checkUsage => .ok { o with checkUsage := true }
  | .json => .ok { o with json := true }
  | .verbose => .ok { o with verbosity := o.verbosity + 1 }
  | .help => .error .help

/-- A flag without a value that has something attached: behind a short option there may stand
further short options. Gives the flags, and what is left over as an argument of its own. -/
def cluster (flag : Flag) (isShort : Bool) (attached : Attached) :
    Nat → Except UsageFault (List (Flag × Option String) × List String)
  | 0 => .ok ([(flag, none)], [])
  | fuel + 1 =>
    if flag.takesValue then .ok ([(flag, some attached.value)], [])
    else match attached.value.toList with
      | [] => .error (.unusedValue flag attached.value)
      | c :: more =>
        if !isShort || attached.isEquals || c == '-' then .error (.unusedValue flag attached.value)
        else match spellings.lookup (String.ofList ['-', c]) with
          | none => .ok ([(flag, none)], ["-" ++ attached.value])
          | some next => do
            let (flags, extra) ← match more with
              | [] => pure ([(next, none)], [])
              | '=' :: value => cluster next true ⟨true, String.ofList value⟩ fuel
              | _ => cluster next true ⟨false, String.ofList more⟩ fuel
            return ((flag, none) :: flags, extra)

/-- Reads classified arguments. Those that are not understood are collected. -/
def readArguments : Nat → Options → List String → List (String × Argument) →
    Except UsageFault (Options × List String)
  | 0, o, extra, _ | _, o, extra, [] => .ok (o, extra)
  | fuel + 1, o, extra, (s, .plain) :: rest | fuel + 1, o, extra, (s, .divider) :: rest
  | fuel + 1, o, extra, (s, .unknown) :: rest => readArguments fuel o (extra ++ [s]) rest
  | fuel + 1, o, extra, (_, .option _ flag none) :: rest =>
    if flag.takesValue then
      match rest with
      | (value, .plain) :: rest => do readArguments fuel (← o.set flag value) extra rest
      | _ => .error (.noValue flag)
    else do readArguments fuel (← o.set flag "") extra rest
  | fuel + 1, o, extra, (_, .option spelling flag (some attached)) :: rest => do
    let isShort := !spelling.startsWith "--"
    let (flags, more) ← cluster flag isShort attached (attached.value.length + 1)
    let o ← flags.foldlM (fun o (flag, value) => o.set flag (value.getD "")) o
    readArguments fuel o (extra ++ more) rest

/-- The options of a command line. -/
def read (arguments : List String) : Except UsageFault Options := do
  let classified ← classifyAll arguments
  let (o, extra) ← readArguments (classified.length + 1) {} [] classified
  if extra.isEmpty then return o else throw (.unrecognized extra)

end Options

/-- What a run of the command prints, and the files afterwards. -/
structure CommandResult where
  exitCode : Nat
  output : String
  errors : String
  tree : FileTree

namespace CommandLine

def exitOk : Nat := 0

/-- There are diagnostics with the severity of an error. -/
def exitErrors : Nat := 1

/-- The run could not be completed. -/
def exitFailure : Nat := 2

/-- What is printed about a command line that cannot be understood. -/
def usageText (f : Options.UsageFault) : String :=
  s!"brslint: error: {f.message}\n"

def lines (ls : List String) : String :=
  String.join (ls.map (· ++ "\n"))

/-- The least level of the log lines that are printed. -/
def logLevel (verbosity : Nat) : LogLevel :=
  if verbosity = 0 then .warning else if verbosity = 1 then .info else .debug

def logText (o : Options) (log : Log) : String :=
  lines ((log.atLeast (logLevel o.verbosity)).map (·.render))

def row (d : Diagnostic) : List (String × (String ⊕ Nat)) :=
  [("severity", .inl d.severity.text), ("code", .inl d.code.text), ("message", .inl d.message),
    ("file", .inl d.file), ("line", .inr (d.range.start.line + 1)),
    ("column", .inr (d.range.start.column + 1)), ("range", .inl d.range.render)]

def outputText (o : Options) (ds : List Diagnostic) : String :=
  if o.json then Json.renderTable (ds.map row) ++ "\n" else lines (ds.map (·.render))

def summaryLines (r : LintResult) : List String :=
  let total := r.diagnostics.length
  let errors := r.count .error
  let warnings := r.count .warn
  let infos := r.count .info
  let fixed := r.applied.values.foldl (· + ·) 0
  let files := r.applied.entries.length
  s!"{total} diagnostic(s): {errors} error(s), {warnings} warning(s), {infos} info" ::
    r.skipped.map (fun s => s!"skipped {s.path}: {s.reason}") ++
    (if r.applied.isEmpty then [] else [s!"fixed {fixed} issue(s) in {files} file(s)"])

/-- A run that could not be completed. -/
def failed (t : FileTree) (o : Options) (log : Log) (message : String) : CommandResult :=
  ⟨exitFailure, "", logText o (log ++ [⟨.error, .commandLine, message⟩]), t⟩

/-- Runs the command. A component in an encoding that cannot be handled ends it without a result. -/
def run (t : FileTree) (o : Options) : Except Markup.Fault CommandResult :=
  match Settings.resolve t o.root o.config ∅ with
  | .error fault => .ok (failed t o [] fault.message)
  | .ok (settings, log) =>
    let settings := { settings with
      checkUsage := settings.checkUsage || o.checkUsage
      fix := settings.fix || o.fix }
    let run := lintProject t settings o.root settings.fix
    let log := log ++ run.log
    match run.result with
    | .error (.project (.encoding fault)) => .error fault
    | .error fault => .ok (failed t o log fault.message)
    | .ok r =>
      let exitCode := if r.count .error = 0 then exitOk else exitErrors
      .ok ⟨exitCode, outputText o r.diagnostics, logText o log ++ lines (summaryLines r), run.tree⟩

end CommandLine

end ChannelLint
