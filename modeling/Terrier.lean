import Terrier.Proof.Deallocation
import Terrier.Proof.Conflicts
import Terrier.Proof.AbortInterleaving
import Terrier.Proof.Recovery
import Terrier.Proof.Classification
import Terrier.Proof.LogReading
import Terrier.Proof.CommitDurability
import Terrier.Proof.DeferredActions
import Terrier.Proof.DistinctSlots
import Terrier.Proof.BlockAccess
import Terrier.Proof.ScanCoverage
import Terrier.Proof.ScannerEnd
import Terrier.Proof.FunctionEnds
import Terrier.Proof.LexicalScope
import Terrier.Proof.FlushWrites
import Terrier.Proof.ConnectionClose
import Terrier.Proof.DataRow
import Terrier.Proof.FramedConnection
import Terrier.Proof.InsertedTuples
import Terrier.Proof.GroupedColumns
import Terrier.Proof.IndexScans
import Terrier.Proof.ArrowContents
import Terrier.Proof.AbortUndo
import Terrier.Proof.NullCounts
import Terrier.Proof.DescendingScans
import Terrier.Proof.HashMultimap
import Terrier.Proof.KeyWidths
import Terrier.Proof.BlockDivision
import Terrier.Proof.FirstUnset
import Terrier.Proof.PoolAccounting
import Terrier.Proof.RecordSizes
import Terrier.Proof.Substrings
import Terrier.Proof.Padding
import Terrier.Proof.Trimming
import Terrier.Proof.PartialAggregates
import Terrier.Proof.SortComparators
import Terrier.Proof.ColumnScopes
import Terrier.Proof.StarExpansion
import Terrier.Proof.DeltaOverride
import Terrier.Proof.PacketFraming
import Terrier.Proof.LowestCosts
import Terrier.Proof.CatalogLookups
