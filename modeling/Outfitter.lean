import Outfitter.Action
import Outfitter.Bundle
import Outfitter.Calendar
import Outfitter.Command
import Outfitter.Command.Arguments
import Outfitter.Config
import Outfitter.Decimal.Nearest
import Outfitter.Decimal.Shortest
import Outfitter.Disk.Basic
import Outfitter.Disk.Change
import Outfitter.Disk.Node
import Outfitter.Embedded
import Outfitter.Error
import Outfitter.Files
import Outfitter.Glob.Pattern
import Outfitter.Glob.Reader
import Outfitter.Guide
import Outfitter.Install
import Outfitter.Inventory
import Outfitter.Json.Basic
import Outfitter.Json.Number
import Outfitter.Json.Pointer
import Outfitter.Json.Reader
import Outfitter.Json.Token
import Outfitter.Json.Writer
import Outfitter.Layout
import Outfitter.Main
import Outfitter.Manifest
import Outfitter.Packaging
import Outfitter.Path
import Outfitter.Proofs.Action
import Outfitter.Proofs.Disk.Edit
import Outfitter.Proofs.Disk.Lookup
import Outfitter.Proofs.Disk.Operations
import Outfitter.Proofs.Path
import Outfitter.Proofs.Tree
import Outfitter.Release
import Outfitter.Servers
import Outfitter.Session
import Outfitter.Settings
import Outfitter.Snapshot
import Outfitter.Text.Blank
import Outfitter.Text.Lossy
import Outfitter.Toolbox
import Outfitter.Update
import Outfitter.Walk
import Outfitter.Yaml.Cursor
import Outfitter.Yaml.Node
import Outfitter.Yaml.Scalar
import Outfitter.Yaml.Token
import Outfitter.Yaml.Value
import Outfitter.Proofs.Files
import Outfitter.Proofs.Directories
import Outfitter.Proofs.Walk
import Outfitter.Proofs.Layout
import Outfitter.Proofs.Snapshot
import Outfitter.Proofs.Install
import Outfitter.Proofs.Settings.Write
import Outfitter.Proofs.Settings.Merge
import Outfitter.Proofs.Update.Untouched
import Outfitter.Proofs.Snapshot.Copy
import Outfitter.Proofs.Manifest
import Outfitter.Proofs.Update.Rollback
import Outfitter.Proofs.Json.Number
import Outfitter.Proofs.Json.Token
import Outfitter.Proofs.Json.Reader
import Outfitter.Proofs.Settings.Ready
import Outfitter.Proofs.Settings.Patch
import Outfitter.Proofs.Disk.Twin
import Outfitter.Proofs.Lockstep
import Outfitter.Proofs.Replace
import Outfitter.Proofs.Update.Parallel
import Outfitter.Proofs.Session
import Outfitter.Proofs.Update.Manual
import Outfitter.Proofs.Update.Phases
import Outfitter.Proofs.Update.Failure
import Outfitter.Proofs.Disk.Links
import Outfitter.Proofs.Update.Current
import Outfitter.Proofs.Install.Report
import Outfitter.Proofs.Install.Account
import Outfitter.Proofs.Update.Report
import Outfitter.Proofs.Glob
import Outfitter.Proofs.Manifest.Curated
import Outfitter.Proofs.Disk.Entry
import Outfitter.Proofs.Settings.RoundTrip
import Outfitter.Proofs.Settings.Settle
import Outfitter.Proofs.Settings.Hooks
import Outfitter.Proofs.Disk.Retain
import Outfitter.Proofs.Ignore
import Outfitter.Proofs.Install.Again
import Outfitter.Proofs.Update.Tidied
import Outfitter.Proofs.Update.Repeat
import Outfitter.Proofs.Disk.Reach
import Outfitter.Proofs.Disk.Growth
import Outfitter.Proofs.Settings.Permissions
import Outfitter.Proofs.Calendar
import Outfitter.Proofs.Settings.Recover
import Outfitter.Proofs.Session.Failure
import Outfitter.Proofs.Install.Owned
import Outfitter.Proofs.Tree.Proper
import Outfitter.Proofs.Snapshot.Prune
import Outfitter.Proofs.Servers
import Outfitter.Proofs.Disk.Develop
import Outfitter.Proofs.Walk.Met
import Outfitter.Proofs.Packaging.Content
import Outfitter.Proofs.Disk.Below
import Outfitter.Proofs.Walk.Tour
import Outfitter.Proofs.Packaging.Mirror
import Outfitter.Proofs.Packaging.Audit
import Outfitter.Proofs.Install.Deliver
import Outfitter.Proofs.Packaging.Deliver
import Outfitter.Proofs.Inventory
import Outfitter.Proofs.Manifest.Segments
import Outfitter.Proofs.Lines
import Outfitter.Proofs.Ignore.Once
import Outfitter.Proofs.Root
import Outfitter.Proofs.Calendar.Order
import Outfitter.Proofs.Snapshot.Order
