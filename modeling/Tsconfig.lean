import Tsconfig.CommandLine.Arguments
import Tsconfig.CommandLine.Run
import Tsconfig.CompilerOptions.Basic
import Tsconfig.CompilerOptions.Choice
import Tsconfig.CompilerOptions.Convert
import Tsconfig.CompilerOptions.Kind
import Tsconfig.CompilerOptions.PathMapping
import Tsconfig.Config.Extends
import Tsconfig.Config.Fault
import Tsconfig.Config.File
import Tsconfig.Config.Package
import Tsconfig.Config.Resolve
import Tsconfig.Discovery.Glob
import Tsconfig.Discovery.Order
import Tsconfig.Discovery.Search
import Tsconfig.Discovery.Shadowing
import Tsconfig.GeneratedConfig
import Tsconfig.Host.Basic
import Tsconfig.Host.Disk
import Tsconfig.Host.Disk.Entry
import Tsconfig.Host.Disk.Listing
import Tsconfig.Host.Disk.Lookup
import Tsconfig.Host.Memory
import Tsconfig.Json.Commented
import Tsconfig.Json.Double
import Tsconfig.Json.Issue
import Tsconfig.Json.NumberReader
import Tsconfig.Json.Parser
import Tsconfig.Json.Printer
import Tsconfig.Json.Shortest
import Tsconfig.Json.StringReader
import Tsconfig.Json.Value
import Tsconfig.Log.Account
import Tsconfig.Log.Directive
import Tsconfig.Log.Event
import Tsconfig.Log.Filter
import Tsconfig.Log.Format
import Tsconfig.Main
import Tsconfig.Module.Resolver
import Tsconfig.OrderedMap
import Tsconfig.Path.Ancestors
import Tsconfig.Path.Basic
import Tsconfig.Program.Basic
import Tsconfig.Program.Registry
import Tsconfig.Project
import Tsconfig.Proofs.FlatOverlay
import Tsconfig.Proofs.Overlay
import Tsconfig.Regex.Basic
import Tsconfig.Regex.CharSet
import Tsconfig.Regex.Parser
import Tsconfig.Regex.Settings
import Tsconfig.Source.Component
import Tsconfig.Source.Kind
import Tsconfig.Source.ModuleReference
import Tsconfig.Source.Token
import Tsconfig.Text.Blank
import Tsconfig.Text.Bytes
import Tsconfig.Text.Cut
import Tsconfig.Text.Hex
import Tsconfig.Text.Letter
import Tsconfig.Walk.BreadthFirst
import Tsconfig.Walk.Unseen
import Tsconfig.Proofs.Path.Normal
import Tsconfig.Proofs.Package.Climb
import Tsconfig.Proofs.Walk.BreadthFirst
import Tsconfig.Proofs.Program.Closure
import Tsconfig.Proofs.Host.Listing
import Tsconfig.Proofs.Discovery.Literal
import Tsconfig.Proofs.Discovery.Roots
import Tsconfig.Proofs.Discovery.Union
import Tsconfig.Proofs.Extends.Tree
import Tsconfig.Proofs.Extends.Cycle
import Tsconfig.Proofs.Json.Reading
import Tsconfig.Proofs.Json.Literal
import Tsconfig.Proofs.Json.Word
import Tsconfig.Proofs.Json.Tokens
import Tsconfig.Proofs.Json.Spacing
import Tsconfig.Proofs.Json.Decorated
import Tsconfig.Proofs.Json.RoundTrip
import Tsconfig.Proofs.Path.Slashes
import Tsconfig.Proofs.Module.Spliced
import Tsconfig.Proofs.CompilerOptions.Declared
import Tsconfig.Proofs.Program.CanonicalNames
import Tsconfig.Proofs.Program.Sessions
import Tsconfig.Proofs.Discovery.Order
import Tsconfig.Proofs.Discovery.Arrangement
import Tsconfig.Proofs.Discovery.Excluded
import Tsconfig.Proofs.Project.References
import Tsconfig.Proofs.Json.Lenient
import Tsconfig.Proofs.Json.Tidy
import Tsconfig.Proofs.Path.Resolution
import Tsconfig.Proofs.Project.Agreement
import Tsconfig.Proofs.Discovery.Default
import Tsconfig.Proofs.Json.Names
import Tsconfig.Proofs.CompilerOptions.LeftOut
import Tsconfig.Proofs.Extends.LeftOut
import Tsconfig.Proofs.Discovery.Shadowing
import Tsconfig.Proofs.Extends.Spelling
import Tsconfig.Proofs.Extends.FirstFault
import Tsconfig.Proofs.Module.DottedEntry
import Tsconfig.Proofs.Discovery.JavaScript
import Tsconfig.Proofs.Json.Positions
import Tsconfig.Proofs.CompilerOptions.Canonical
import Tsconfig.Proofs.Module.MostSpecific
import Tsconfig.Proofs.Extends.PathsBase
import Tsconfig.Proofs.Module.Switches
import Tsconfig.Proofs.Module.NearestPackage
import Tsconfig.Proofs.Package.Log
import Tsconfig.Proofs.Package.Subpath
import Tsconfig.Proofs.Project.Grouping
import Tsconfig.Proofs.Source.Scan
import Tsconfig.Proofs.Source.Layout
import Tsconfig.Proofs.Source.NamedClauses
import Tsconfig.Proofs.Source.Interleaved
import Tsconfig.Proofs.Source.LeadingComments
import Tsconfig.Proofs.Source.Component.Offsets
import Tsconfig.Proofs.Source.Component.Attributes
import Tsconfig.Proofs.Path.Places
import Tsconfig.Proofs.Path.Composition
import Tsconfig.Proofs.Path.Climb
import Tsconfig.Proofs.Module.Climbs
import Tsconfig.Proofs.Source.Component.References
import Tsconfig.Proofs.Path.Opening
import Tsconfig.Proofs.Discovery.Directories
import Tsconfig.Proofs.Discovery.Cover
