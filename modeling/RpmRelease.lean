import RpmRelease.FileSystem.Fixture
import RpmRelease.FileSystem.Listing
import RpmRelease.Main
import RpmRelease.Script
import RpmRelease.Proofs.Macros.Expansion
import RpmRelease.Proofs.Macros.Expression
import RpmRelease.Proofs.Descriptor.Emptiness
import RpmRelease.Proofs.Descriptor.Preamble
import RpmRelease.Proofs.Tar.Header
import RpmRelease.Proofs.Path
import RpmRelease.Proofs.Run
import RpmRelease.Proofs.Tar.Slot
import RpmRelease.Proofs.Tar.Stream
import RpmRelease.Proofs.FileSystem.Lookup
import RpmRelease.Proofs.FileSystem.Tree
import RpmRelease.Proofs.FileSystem.Opening
import RpmRelease.Proofs.Archive.RoundTrip
import RpmRelease.Proofs.FileSystem.Erasing
import RpmRelease.Proofs.Execution.History
import RpmRelease.Proofs.Execution.Recording
import RpmRelease.Proofs.Execution.Delivery
import RpmRelease.Proofs.Execution.Order
import RpmRelease.Proofs.FileSystem.Course
import RpmRelease.Proofs.FileSystem.Makes
import RpmRelease.Proofs.FileSystem.Putting
import RpmRelease.Proofs.Manifest.Copying
import RpmRelease.Proofs.FileSystem.Listed
import RpmRelease.Proofs.Manifest.Confinement
import RpmRelease.Proofs.Manifest.Sequence
import RpmRelease.Proofs.FileSystem.Cutting
import RpmRelease.Proofs.FileSystem.Removing
import RpmRelease.Proofs.Release
import RpmRelease.Proofs.Archive.Failing
import RpmRelease.Proofs.Archive.Replacing
import RpmRelease.Proofs.Staging.Cleaning
import RpmRelease.Proofs.FileSystem.Blurring
import RpmRelease.Proofs.FileSystem.Agreeing
import RpmRelease.Proofs.Path.Moves
import RpmRelease.Proofs.FileSystem.Twins
import RpmRelease.Proofs.Archive.Naming
import RpmRelease.Proofs.Archive.Repeating
import RpmRelease.Proofs.Execution.Rerun
import RpmRelease.Proofs.Calendar
import RpmRelease.Proofs.Text.Lines
import RpmRelease.Proofs.Changelog
import RpmRelease.Proofs.Commit
import RpmRelease.Proofs.Staging.InRoot
import RpmRelease.Proofs.Execution.Exchanges
import RpmRelease.Proofs.Execution.Tagging
import RpmRelease.Proofs.CommandLine
import RpmRelease.Proofs.Application
import RpmRelease.Proofs.Archive.Reproducing
import RpmRelease.Proofs.Execution.Stepwise
import RpmRelease.Proofs.Failure
import RpmRelease.Proofs.Execution.Ending
import RpmRelease.Proofs.FileSystem.Growing
import RpmRelease.Proofs.Execution.Refusal
import RpmRelease.Proofs.Execution.Regenerating
import RpmRelease.Proofs.Execution.Settling
import RpmRelease.Proofs.FileSystem.Laying
import RpmRelease.Proofs.FileSystem.Inside
import RpmRelease.Proofs.FileSystem.Passing
import RpmRelease.Proofs.FileSystem.Adding
import RpmRelease.Proofs.FileSystem.Relisting
import RpmRelease.Proofs.FileSystem.Mirroring
import RpmRelease.Proofs.FileSystem.Replicating
import RpmRelease.Proofs.FileSystem.Permissions
import RpmRelease.Proofs.FileSystem.Transferring
import RpmRelease.Proofs.Install
import RpmRelease.Proofs.Glob
import RpmRelease.Proofs.Glob.Escaping
import RpmRelease.Proofs.Glob.Root
import RpmRelease.Proofs.Glob.Descending
import RpmRelease.Proofs.Glob.Rooted
import RpmRelease.Proofs.Install.Sources
import RpmRelease.Proofs.Path.Ending
import RpmRelease.Proofs.FileSystem.Respelling
import RpmRelease.Proofs.FileSystem.Recopying
import RpmRelease.Proofs.Manifest.Staged
import RpmRelease.Proofs.Manifest.Overlap
import RpmRelease.Proofs.Macros.Verbatim
import RpmRelease.Proofs.Descriptor.Characters
import RpmRelease.Proofs.Configuration.Sections
import RpmRelease.Proofs.Install.Cleaning
import RpmRelease.Proofs.Tag
import RpmRelease.Proofs.Failure.Remarks
import RpmRelease.Proofs.Path.Joining
import RpmRelease.Proofs.Install.Destination
import RpmRelease.Proofs.FileSystem.Entering
import RpmRelease.Proofs.Tar.Unpacking
import RpmRelease.Proofs.Execution.Exporting
