import QuantumFlow.Foundation.Outcome
import QuantumFlow.Foundation.Reader
import QuantumFlow.Foundation.LittleEndian
import QuantumFlow.Foundation.Format
import QuantumFlow.Foundation.Spelling
import QuantumFlow.Foundation.Utf8
import QuantumFlow.Foundation.Dict
import QuantumFlow.Foundation.Hex
import QuantumFlow.Foundation.PairMerge
import QuantumFlow.Foundation.Selection
import QuantumFlow.Foundation.Truncation
import QuantumFlow.Foundation.LongestMatch
import QuantumFlow.Foundation.Lossy
import QuantumFlow.Foundation.XorShift
import QuantumFlow.Foundation.Concentration
import QuantumFlow.Foundation.Packing
import QuantumFlow.Foundation.RowMajor
import QuantumFlow.Foundation.Windows
import QuantumFlow.Foundation.Checked
import QuantumFlow.Foundation.Region
import QuantumFlow.Foundation.Ledger
import QuantumFlow.Foundation.Transition
import QuantumFlow.Gguf.Header
import QuantumFlow.Gguf.Layout
import QuantumFlow.Gguf.RoundTrip
import QuantumFlow.Gguf.VersionOne
import QuantumFlow.Gguf.Hostile
import QuantumFlow.Gguf.Truncated
import QuantumFlow.Gguf.Accepted
import QuantumFlow.Tokenizer.ByteMap
import QuantumFlow.Tokenizer.Tables
import QuantumFlow.Tokenizer.Vocabulary
import QuantumFlow.Tokenizer.Encode
import QuantumFlow.Tokenizer.Cuts
import QuantumFlow.Tokenizer.Segmentation
import QuantumFlow.Tokenizer.RoundTrip
import QuantumFlow.Tokenizer.Lossless
import QuantumFlow.Tokenizer.Numbering
import QuantumFlow.Tokenizer.Fallback
import QuantumFlow.Tokenizer.ByteWalk
import QuantumFlow.Tokenizer.Fixpoint
import QuantumFlow.Tokenizer.ByteTable
import QuantumFlow.Tokenizer.ReferenceBpe
import QuantumFlow.Graph.Layers
import QuantumFlow.Loader.MappedModel
import QuantumFlow.Loader.Placement
import QuantumFlow.Loader.WrittenFile
import QuantumFlow.Loader.Shapes
import QuantumFlow.Graph.LlamaGraph
import QuantumFlow.Loader.Startup
import QuantumFlow.Graph.WrittenRows
import QuantumFlow.Graph.Positions
import QuantumFlow.Graph.Causality
import QuantumFlow.Graph.Agreement
import QuantumFlow.Graph.CachedTokens
import QuantumFlow.Graph.AppendOnly
import QuantumFlow.Graph.Reset
import QuantumFlow.Graph.Indistinct
import QuantumFlow.Graph.OwnRow
import QuantumFlow.Generate.Template
import QuantumFlow.Generate.Injection
import QuantumFlow.Generate.Turn
import QuantumFlow.Generate.Capture
import QuantumFlow.Generate.Streaming
import QuantumFlow.Generate.Echo
import QuantumFlow.Generate.Window
import QuantumFlow.Generate.Capacity
import QuantumFlow.Generate.Chat
import QuantumFlow.Generate.Isolation
import QuantumFlow.Generate.SingleShot
import QuantumFlow.Generate.Budget
import QuantumFlow.Generate.Limits
import QuantumFlow.Generate.Transcript
import QuantumFlow.Generate.SessionCache
import QuantumFlow.Generate.FailedTurn
import QuantumFlow.Generate.VocabSizes
import QuantumFlow.Sampling.Logits
import QuantumFlow.Sampling.Penalty
import QuantumFlow.Sampling.Panics
import QuantumFlow.Sampling.Nucleus
import QuantumFlow.Sampling.Stricter
import QuantumFlow.Sampling.RandomState
import QuantumFlow.Sampling.Projection
import QuantumFlow.Generate.Reproducible
import QuantumFlow.Mapper.Windows
import QuantumFlow.Mapper.Prefetcher
import QuantumFlow.Mapper.Stopping
import QuantumFlow.Graph.KvSizes
import QuantumFlow.Graph.Regions
import QuantumFlow.Graph.GraphSize
import QuantumFlow.Graph.Handles
import QuantumFlow.Program.Lifetime
import QuantumFlow.Program.CommandLine
import QuantumFlow.Program.Main
