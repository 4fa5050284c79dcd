import RubyLint.Allow
import RubyLint.Analyzer.Basic
import RubyLint.Analyzer.Fix
import RubyLint.Batch
import RubyLint.Catalog
import RubyLint.Cli.Command
import RubyLint.Cli.ConfigFile
import RubyLint.Cli.Json
import RubyLint.Cli.Output
import RubyLint.Cli.Run
import RubyLint.Cli.Snapshot
import RubyLint.Config.Basic
import RubyLint.Config.Value
import RubyLint.Glob
import RubyLint.Ignore.Pattern
import RubyLint.Ignore.Rule
import RubyLint.Main
import RubyLint.Notice
import RubyLint.Outline.Basic
import RubyLint.Outline.Item
import RubyLint.Outline.Resolve
import RubyLint.Outline.Scope
import RubyLint.Parse
import RubyLint.Path
import RubyLint.Project.Discover
import RubyLint.Project.Disk
import RubyLint.Project.Repository
import RubyLint.Project.Run
import RubyLint.Project.UserList
import RubyLint.Report
import RubyLint.Rule.Basic
import RubyLint.Rule.Calls
import RubyLint.Rule.Constants
import RubyLint.Rule.Files
import RubyLint.Rule.Frozen
import RubyLint.Rule.GraphQL
import RubyLint.Rule.Liquid
import RubyLint.Rule.Migration
import RubyLint.Rule.Struct
import RubyLint.Source
import RubyLint.Surroundings
import RubyLint.Syntax.Call
import RubyLint.Syntax.Fault
import RubyLint.Syntax.Rows
import RubyLint.Syntax.Tree
import RubyLint.Syntax.Walk
import RubyLint.Text.Blank
import RubyLint.Text.Bytes
import RubyLint.Text.Invisible
import RubyLint.Text.Lines
import RubyLint.Text.Quoted
import RubyLint.Violation
import RubyLint.Proofs.FixPasses
import RubyLint.Proofs.Batch
import RubyLint.Proofs.Lines
import RubyLint.Proofs.FrozenHead
import RubyLint.Proofs.Catalog
import RubyLint.Proofs.FrozenFix
import RubyLint.Proofs.ScopeWalk
import RubyLint.Proofs.Splice
import RubyLint.Proofs.Numbering
import RubyLint.Proofs.Chains
import RubyLint.Proofs.Origin
import RubyLint.Proofs.Placement
import RubyLint.Proofs.Acceptance
import RubyLint.Proofs.LineNumbers
import RubyLint.Proofs.Directives
import RubyLint.Proofs.Suppression
import RubyLint.Proofs.Numbered
import RubyLint.Proofs.Links
import RubyLint.Proofs.ScopeDescent
import RubyLint.Proofs.DefiningScope
import RubyLint.Proofs.Walk
import RubyLint.Proofs.Marked
import RubyLint.Proofs.Fixable
import RubyLint.Proofs.Selecting
import RubyLint.Proofs.PathOrder
import RubyLint.Proofs.Discovery
import RubyLint.Proofs.FixRun
import RubyLint.Proofs.WalkOrder
import RubyLint.Proofs.Targets
import RubyLint.Proofs.Qualified
import RubyLint.Proofs.Templates
import RubyLint.Proofs.FrozenLine
import RubyLint.Proofs.Layout
import RubyLint.Proofs.OptionLists
import RubyLint.Proofs.StableSort
import RubyLint.Proofs.Listing
import RubyLint.Proofs.Positions
import RubyLint.Proofs.LineTexts
import RubyLint.Proofs.RelativePaths
import RubyLint.Proofs.Preorder
import RubyLint.Proofs.SourceOrder
import RubyLint.Proofs.WrittenDirectives
import RubyLint.Proofs.FirstFault
import RubyLint.Proofs.Iteration
import RubyLint.Proofs.FileNames
import RubyLint.Proofs.RunningRules
import RubyLint.Proofs.Excludes
import RubyLint.Proofs.Grouping
import RubyLint.Proofs.SilentLoops
import RubyLint.Proofs.ChainWalks
