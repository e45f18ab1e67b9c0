import ChannelLint.Main
import ChannelLint.Tools
import ChannelLint.Proofs.Ending
import ChannelLint.Proofs.DeadStore
import ChannelLint.Proofs.FalseAlarm
import ChannelLint.Proofs.AssignedSet
import ChannelLint.Proofs.Narrowing
import ChannelLint.Proofs.Locals
import ChannelLint.Proofs.Arena
import ChannelLint.Proofs.Splicing
import ChannelLint.Proofs.FixedFiles
import ChannelLint.Proofs.Casing.Relint
import ChannelLint.Proofs.Casing.Earlier
import ChannelLint.Proofs.Levels
import ChannelLint.Proofs.Worklist
import ChannelLint.Proofs.Index
import ChannelLint.Proofs.Scopes
import ChannelLint.Proofs.Usage.Registration
import ChannelLint.Proofs.Usage.Reach
import ChannelLint.Proofs.Literals.Tree
import ChannelLint.Proofs.Literals.Scripts
import ChannelLint.Proofs.Usage.Vertices
import ChannelLint.Proofs.Usage.DeadScripts
import ChannelLint.Proofs.Usage.Order
import ChannelLint.Proofs.Naming.Dotted
import ChannelLint.Proofs.Naming.Declared
import ChannelLint.Proofs.Naming.Deferred
import ChannelLint.Proofs.Naming.Functions
import ChannelLint.Proofs.Naming.Sessions
import ChannelLint.Proofs.Reading.Utf8
import ChannelLint.Proofs.Reading.Alone
import ChannelLint.Proofs.Reading.LineEnds
import ChannelLint.Proofs.Reading.OnDisk
import ChannelLint.Proofs.Reading.Kept
import ChannelLint.Proofs.Rendering.Words
import ChannelLint.Proofs.Rendering.Lexing
import ChannelLint.Proofs.Rendering.Parsing
import ChannelLint.Proofs.Rendering.RoundTrip
import ChannelLint.Proofs.Ignoring
import ChannelLint.Proofs.Spans.Scripts
import ChannelLint.Proofs.Spans.Functions
import ChannelLint.Proofs.Grammar.Scripts
import ChannelLint.Proofs.Positions
