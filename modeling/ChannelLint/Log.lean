/-!
# Log lines

What a run tells about itself besides its result. A line has a level and the part of the linter it
comes from.
-/
namespace ChannelLint

inductive LogLevel where
  | debug | info | warning | error
  deriving DecidableEq, Repr

def LogLevel.text : LogLevel → String
  | debug => "DEBUG"
  | info => "INFO"
  | warning => "WARNING"
  | error => "ERROR"

def LogLevel.rank : LogLevel → Nat
  | debug => 0
  | info => 1
  | warning => 2
  | error => 3

inductive LogSource where
  | settings | scripts | components | index | flow | usage | fixer | linter | commandLine
  deriving DecidableEq, Repr

def LogSource.text : LogSource → String
  | settings => "brslint.config"
  | scripts => "brslint.brs_parser"
  | components => "brslint.xml_component"
  | index => "brslint.workspace_index"
  | flow => "brslint.code_flow"
  | usage => "brslint.usage_graph"
  | fixer => "brslint.batch_fixer"
  | linter => "brslint.linter"
  | commandLine => "brslint.cli"

structure LogLine where
  level : LogLevel
  source : LogSource
  message : String
  deriving DecidableEq, Repr

abbrev Log := List LogLine

def LogLine.render (l : LogLine) : String :=
  s!"{l.level.text} {l.source.text}: {l.message}"

/-- The lines at a level or above. -/
def Log.atLeast (log : Log) (level : LogLevel) : Log :=
  log.filter fun line => level.rank ≤ line.level.rank

end ChannelLint
