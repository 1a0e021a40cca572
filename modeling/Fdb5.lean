import Fdb5.Library.Effect
import Fdb5.Library.Search
import Fdb5.Library.LastWins
import Fdb5.Library.Acyclic
import Fdb5.Key
import Fdb5.Toc.Masking
import Fdb5.Toc.LSMIndex
import Fdb5.Toc.WriterCalls
import Fdb5.Toc.Mounts
import Fdb5.Toc.Unmount
import Fdb5.Toc.PartialWipe
import Fdb5.Toc.Resume
import Fdb5.Toc.Reconsolidate
import Fdb5.Toc.Layout
import Fdb5.Toc.Compaction
import Fdb5.Toc.ReadYourWrites
import Fdb5.Toc.History
import Fdb5.Inspect.History
import Fdb5.Remote.ArchiveClient
import Fdb5.Remote.Demultiplex
import Fdb5.Remote.Control
import Fdb5.Remote.AvailablePortList
import Fdb5.Remote.ReadStreams
import Fdb5.Remote.ArchiveData
import Fdb5.Api.DistFlush
import Fdb5.Api.LocalVisitors
import Fdb5.Api.SelectFDB
import Fdb5.Toc.Creation
import Fdb5.Library.Follows
import Fdb5.Toc.ExpverFileSpaceHandler
import Fdb5.Toc.TocStore
import Fdb5.Toc.FileSpace
import Fdb5.Toc.RootManager
import Fdb5.Toc.Move
import Fdb5.Toc.ListAgreement
import Fdb5.Remote.ArchiveRun
import Fdb5.Toc.IndexVisits
import Fdb5.Toc.UriTable
import Fdb5.Api.StepUnits
import Fdb5.Toc.AxisMatch
import Fdb5.Toc.ListPruning
import Fdb5.Toc.AxisRegistry
import Fdb5.Toc.AxisSharing
import Fdb5.Toc.IndexPayload
import Fdb5.Rules.SchemaParser
import Fdb5.Rules.SchemaText
import Fdb5.Library.Trie
import Fdb5.Pmem.VisitLeaves
import Fdb5.Io.SingleGribMungePartFileHandle
import Fdb5.KeyText
import Fdb5.Types
import Fdb5.Rules.Filling
import Fdb5.Remote.KeyCalls
import Fdb5.Inspect.Restored
import Fdb5.Inspect.ReadSide
import Fdb5.LocationUri
import Fdb5.Toc.SeenKeys
import Fdb5.Library.Ledger
import Fdb5.Toc.Stats
import Fdb5.Inspect.Backtracking
import Fdb5.Inspect.FirstLevel
import Fdb5.Database.Archiver
import Fdb5.Database.LastBytes
import Fdb5.Database.ArchiveHistory
import Fdb5.Database.DbCalls
import Fdb5.Database.Accounts
import Fdb5.Database.ArchiverRun
import Fdb5.Database.ArchiveWalk
import Fdb5.Database.LastArchived
