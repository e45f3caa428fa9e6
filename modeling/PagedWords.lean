import PagedWords.Search.Code
import PagedWords.Workspace
import PagedWords.Batches
import PagedWords.Proofs.Edits
import PagedWords.Proofs.Filtering
import PagedWords.Proofs.StoreUnion
import PagedWords.Proofs.StoreSearches
import PagedWords.Proofs.StoreSorts
import PagedWords.Proofs.StoreFilters
import PagedWords.Proofs.Windows
import PagedWords.Proofs.CommonKeys
import PagedWords.Proofs.FlatUnions
import PagedWords.Proofs.CombinedValues
import PagedWords.Proofs.ChunkedFilters
import PagedWords.Proofs.ComplementaryFilters
import PagedWords.Proofs.CandidateHistories
import PagedWords.Proofs.SavedFiles
import PagedWords.Proofs.ReadOnlyStores
import PagedWords.Proofs.RecordChecks
import PagedWords.Proofs.Addressing
import PagedWords.Proofs.ScratchFolders
import PagedWords.Proofs.ExternalSorts
import PagedWords.Proofs.FailingCallbacks
import PagedWords.Proofs.FindingCodes
import PagedWords.Proofs.StoreQuickSort
import PagedWords.Proofs.MergedSegments
import PagedWords.Proofs.FileRegions
import PagedWords.Proofs.AscendingSearches
import PagedWords.Proofs.StoreMergeSort
import PagedWords.Proofs.MergeCapacity
import PagedWords.Proofs.CandidateCursors
import PagedWords.Proofs.EmptyRanges
import PagedWords.Proofs.FileLoads
import PagedWords.Proofs.FileOffsets
import PagedWords.Proofs.StableSorts
import PagedWords.Proofs.Partitions
import PagedWords.Proofs.SafeLookups
import PagedWords.Proofs.SharedFiles
