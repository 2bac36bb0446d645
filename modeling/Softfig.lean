import Softfig.Lib.Transition
import Softfig.Lib.Jcs
import Softfig.Lib.PathTree
import Softfig.Lib.Worklist
import Softfig.Lib.ColouredDfs
import Softfig.Lib.Except
import Softfig.Lib.Rows
import Softfig.Lib.Base64
import Softfig.Lib.Fallible
import Softfig.Lib.CrashDisk
import Softfig.Lib.History
import Softfig.Lib.Search
import Softfig.Store.Hash
import Softfig.Store.Db
import Softfig.Store.Objects
import Softfig.Vcs.Path
import Softfig.Vcs.Walk
import Softfig.Vcs.Commit
import Softfig.Vcs.Tree
import Softfig.Vcs.Repo
import Softfig.Vcs.Interleaving
import Softfig.Vcs.Integrity
import Softfig.Vcs.Snapshot
import Softfig.Vcs.Chain
import Softfig.Vcs.SharedConfig
import Softfig.Vcs.Gc
import Softfig.Vcs.Fsck
import Softfig.Vcs.Tamper
import Softfig.Queue.Model
import Softfig.Queue.Validate
import Softfig.Queue.Scheduler
import Softfig.Queue.Garden
import Softfig.Queue.Verbs
import Softfig.Queue.Ops
import Softfig.Queue.Entries
import Softfig.Queue.Items
import Softfig.Queue.Placement
import Softfig.Queue.Invariants
import Softfig.Queue.Identities
import Softfig.Queue.Agreement
import Softfig.Queue.Order
import Softfig.Queue.Numbering
import Softfig.Net.Turn
import Softfig.Net.TurnRing
import Softfig.Net.ChainHealth
import Softfig.Net.NoiseLink
import Softfig.Doc.Managed
import Softfig.Doc.Sections
import Softfig.Doc.SectionFrame
import Softfig.Doc.SectionEdits
import Softfig.Doc.ItemMeta
import Softfig.Doc.MemberGuard
import Softfig.LayerB.Bounds
import Softfig.Doc.Patch
import Softfig.LayerB.Regions
import Softfig.LayerB.Scan
import Softfig.LayerB.Masks
import Softfig.LayerB.OpenFlags
import Softfig.LayerB.Substitution
import Softfig.LayerB.WritePath
import Softfig.LayerB.Redaction
import Softfig.LayerB.ReadView
import Softfig.LayerB.Routing
import Softfig.LayerB.SharedKeys
import Softfig.Vault.Params
import Softfig.Vault.Kek
import Softfig.Vault.Storage
import Softfig.Vault.Session
import Softfig.Vault.Wrappings
import Softfig.Vault.DoorRuns
import Softfig.Vault.CrashRuns
import Softfig.Vault.Varint
import Softfig.Vault.Containers
import Softfig.Vault.SealRuns
import Softfig.Replica.Wire
import Softfig.Lib.Slots
import Softfig.KeyCeremony.Messages
import Softfig.KeyCeremony.Machine
import Softfig.KeyCeremony.Invariant
import Softfig.KeyCeremony.Drive
import Softfig.KeyCeremony.Mesh
import Softfig.KeyCeremony.Agreement
import Softfig.KeyCeremony.Participation
import Softfig.KeyCeremony.Persist
import Softfig.KeyCeremony.Custody
import Softfig.Lib.PathTraverse
import Softfig.Lib.Overlay
import Softfig.Lib.Edits
import Softfig.Lib.Descend
import Softfig.Mount.Cache
import Softfig.Mount.KernelWrites
import Softfig.Mount.Inner
import Softfig.Mount.Inodes
import Softfig.Mount.Staging
import Softfig.Mount.Working
import Softfig.Mount.Union
import Softfig.Mount.Rotation
import Softfig.Mount.Absorption
import Softfig.Mount.Renames
import Softfig.Mount.WorkTree
import Softfig.Mount.Moves
import Softfig.Mount.Exactness
import Softfig.Share.Trees
import Softfig.Share.Pull
import Softfig.Share.CatchUp
import Softfig.Share.Sidecar
import Softfig.Share.Exchange
import Softfig.Watcher.Accumulator
import Softfig.Watcher.Flush
import Softfig.Watcher.Lossless
import Softfig.Lib.Calendar
import Softfig.Lib.Slicing
import Softfig.Doc.NotBefore
import Softfig.Fleet.Budget
import Softfig.Fleet.ModelChoice
import Softfig.Lib.Mailbox
import Softfig.Lib.Cells
import Softfig.Doc.RegionEdits
import Softfig.Doc.RegionLaws
import Softfig.Doc.WholeSections
import Softfig.Doc.RefLaws
import Softfig.Replica.AnyPeer
import Softfig.Replica.Agreement
import Softfig.Replica.PullRuns
import Softfig.Vault.KekIdeal
import Softfig.Vault.EscrowLaws
import Softfig.Growlight.Thrash
import Softfig.Growlight.Chat
import Softfig.Growlight.Bus
import Softfig.Growlight.Numbering
import Softfig.Growlight.QueueTable
import Softfig.Growlight.Apply
import Softfig.Growlight.Backlog
import Softfig.Growlight.Board
import Softfig.Growlight.BacklogRuns
import Softfig.Tui.EditorRuns
import Softfig.Growlight.Leases
