import OpenXPC.GuardedRuns
import OpenXPC.TailQueue
import OpenXPC.WellFormedQueues
import OpenXPC.InsertionMap
import OpenXPC.Objects
import OpenXPC.Containers
import OpenXPC.Traversals
import OpenXPC.LinkedArrays
import OpenXPC.ArrayEnumeration
import OpenXPC.ArrayIndexing
import OpenXPC.ArrayReplacement
import OpenXPC.Getters
import OpenXPC.DictionaryRuns
import OpenXPC.Destruction
import OpenXPC.Lifetimes
import OpenXPC.SharedOwners
import OpenXPC.Trees
import OpenXPC.Copying
import OpenXPC.WireValues
import OpenXPC.Encoding
import OpenXPC.Decoding
import OpenXPC.RoundTrips
import OpenXPC.DictionaryCounts
import OpenXPC.NullCopies
import OpenXPC.Hashing
import OpenXPC.JobLaunch
import OpenXPC.Descriptors
import OpenXPC.JobArguments
import OpenXPC.UnwrittenBytes
import OpenXPC.BorrowedKeys
import OpenXPC.CapturedMessages
import OpenXPC.Conversion
import OpenXPC.ReceivedValues
import OpenXPC.Sockets
import OpenXPC.Validation
import OpenXPC.Sending
import OpenXPC.Verdicts
import OpenXPC.SocketResults
import OpenXPC.SocketFailures
import OpenXPC.SocketPaths
import OpenXPC.EnumeratedKeys
import OpenXPC.Logging
import OpenXPC.Formats
import OpenXPC.WordEquations
import OpenXPC.FormatExpansion
import OpenXPC.ReferenceCounts
import OpenXPC.OwnedValues
import OpenXPC.ConversionFaults
import OpenXPC.Stores
import OpenXPC.Blocks
import OpenXPC.Separation
import OpenXPC.BlockViews
import OpenXPC.CopySeparation
import OpenXPC.Ownership
import OpenXPC.DistinctKeys
import OpenXPC.Leaks
import OpenXPC.WireFlags
import OpenXPC.BlockReaders
import OpenXPC.Overwriting
import OpenXPC.Outcomes
import OpenXPC.StringBuffers
import OpenXPC.BufferSteps
import OpenXPC.BufferRuns
import OpenXPC.BufferContents
import OpenXPC.BufferAppends
import OpenXPC.BufferSections
import OpenXPC.Descriptions
import OpenXPC.DescriptionTexts
import OpenXPC.Walks
import OpenXPC.Loading
import OpenXPC.Deliveries
import OpenXPC.QueueFrames
import OpenXPC.LinkedPairs
import OpenXPC.QueueRepresentation
import OpenXPC.LinkedOperations
import OpenXPC.LinkedDestruction
import OpenXPC.LinkedRuns
import OpenXPC.HashParity
import OpenXPC.HashWords
import OpenXPC.ManagerLoop
