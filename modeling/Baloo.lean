import Baloo.Transactions
import Baloo.Lib.Forest
import Baloo.UrlForest
import Baloo.Lib.Cursor
import Baloo.Posting
import Baloo.PostingAlgebra
import Baloo.Lib.Since
import Baloo.NoLostUpdate
import Baloo.FileIndexScheduler
import Baloo.SchedulerRuns
import Baloo.FileContentIndexer
import Baloo.Lib.Transition
import Baloo.Halving
import Baloo.StopRequest
import Baloo.QueryMeaning
import Baloo.SearchDenotation
import Baloo.FileIndexerConfig
import Baloo.IndexCleaner
import Baloo.FilteredDirIterator
import Baloo.KInotify
import Baloo.FolderDecision
import Baloo.WatchUpdate
import Baloo.EventBuffer
import Baloo.MovePairing
import Baloo.DirectoryMoves
import Baloo.CreationRace
import Baloo.MainHub
import Baloo.PhraseIterator
import Baloo.MTimeIndex
import Baloo.Indexers
import Baloo.Settling
import Baloo.Lib.Framing
import Baloo.Lib.BigEndian
import Baloo.CommandPipe
import Baloo.Extractor
import Baloo.ExtractorRuns
import Baloo.ExtractorBatch
import Baloo.Reindexing
import Baloo.DocumentVisits
import Baloo.OnePath
import Baloo.PathLookup
import Baloo.SubtreeRemoval
import Baloo.MetadataMover
import Baloo.UnindexedWalk
import Baloo.RecursiveRemoval
import Baloo.DocumentReplacement
import Baloo.RemoveAndAdd
import Baloo.DirectoryDeletion
import Baloo.WatchInstallation
import Baloo.WatchTables
import Baloo.Lib.Inverse
import Baloo.FolderQuery
import Baloo.LastWrite
import Baloo.TextQueries
import Baloo.Lib.Varint
import Baloo.PositionCodec
import Baloo.PhraseCursor
import Baloo.DateSearch
import Baloo.Result
import Baloo.PropertyComparison
import Baloo.UrlRelocation
import Baloo.PathEntry
import Baloo.DocumentEntry
import Baloo.PropertyPhrase
import Baloo.TextNumbers
import Baloo.PhraseSearch
import Baloo.FolderLookup
import Baloo.SearchableFolders
import Baloo.RegExpCache
import Baloo.FolderIteration
import Baloo.PendingDeadlines
import Baloo.QuotedText
import Baloo.WatchRemoval
import Baloo.TermSegments
import Baloo.ResultPages
import Baloo.UnclosedGroups
import Baloo.PendingRenames
import Baloo.Lib.MultiMap
import Baloo.PropertyData
import Baloo.RemainingCount
import Baloo.Lib.Replace
import Baloo.TagFolders
import Baloo.TagEntries
import Baloo.RootRemoval
import Baloo.SavedQueries
import Baloo.Lib.Unordered
import Baloo.TermEquality
import Baloo.Surrogates
import Baloo.Lib.KeyValueStore
import Baloo.ByteTables
import Baloo.ByteRefinement
import Baloo.DatabaseChecks
import Baloo.FileIds
import Baloo.DatabaseSanitizer
import Baloo.WordSearch
import Baloo.Lib.Channel
import Baloo.ExtractorConversation
import Baloo.TimelineUrls
import Baloo.TimelineFolders
import Baloo.Lib.LongestMatch
import Baloo.ConfigCommand
import Baloo.ClearCommand
import Baloo.Lib.Sections
import Baloo.TagBrowsing
