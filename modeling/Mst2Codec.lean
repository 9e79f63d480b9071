import Mst2Codec.Library.Bytes
import Mst2Codec.Library.Utf8
import Mst2Codec.Library.Except
import Mst2Codec.Library.Prog
import Mst2Codec.Library.Trie
import Mst2Codec.Library.Words
import Mst2Codec.Library.Lex
import Mst2Codec.Namespace.Path
import Mst2Codec.Namespace.Radix
import Mst2Codec.Namespace.Radix.Codec
import Mst2Codec.Namespace.Radix.Keys
import Mst2Codec.Namespace.Radix.Index
import Mst2Codec.Namespace.Radix.Stored
import Mst2Codec.Basic
import Mst2Codec.Namespace.Radix.Rules
import Mst2Codec.Namespace.Radix.Update
import Mst2Codec.Namespace.Radix.Lookup
import Mst2Codec.Namespace.Radix.Stores
import Mst2Codec.Namespace.Radix.FiniteMap
import Mst2Codec.Namespace.Radix.Memory
import Mst2Codec.MetaPage
import Mst2Codec.MetaPage.Build
import Mst2Codec.MetaPage.Codec
import Mst2Codec.MetaPage.Partition
import Mst2Codec.MetaPage.Canonical
import Mst2Codec.MetaPage.Route
import Mst2Codec.MetaPage.Cover
import Mst2Codec.MetaPage.Identity
import Mst2Codec.MetaPage.Tree
import Mst2Codec.ChunkMap
import Mst2Codec.ChunkMap.Proof
import Mst2Codec.Namespace.Radix.Tamper
import Mst2Codec.Namespace.Radix.Snapshots
import Mst2Codec.Zstd1
import Mst2Codec.TreeFrame.ErrorJson
import Mst2Codec.TreeFrame
import Mst2Codec.TreeFrame.Payloads
import Mst2Codec.TreeFrame.Frames
import Mst2Codec.TreeFrame.Stream
import Mst2Codec.TreeFrame.JsonScan
import Mst2Codec.TreeFrame.ErrorGrammar
import Mst2Codec.TreeFrame.ErrorRoundTrip
import Mst2Codec.Namespace.ManifestCanonical
import Mst2Codec.Descriptor
import Mst2Codec.Checked
import Mst2Codec.Namespace.Radix.Canonical
import Mst2Codec.TreeFrame.Compressed
import Mst2Codec.Descriptor.Canonical
import Mst2Codec.ChunkMap.Canonical
import Mst2Codec.TreeFrame.ErrorResend
import Mst2Codec.Namespace.Radix.KeyOrder
import Mst2Codec.Namespace.Radix.Calls
import Mst2Codec.Namespace.Radix.Bounds
import Mst2Codec.Namespace.Radix.Sharing
import Mst2Codec.Namespace.Radix.CopyOnWrite
import Mst2Codec.Namespace.Radix.LookupsAgree
import Mst2Codec.ChunkMap.Shape
import Mst2Codec.ChunkMap.Tiling
import Mst2Codec.Descriptor.Scope
import Mst2Codec.Zstd1.Header
import Mst2Codec.Zstd1.Stream
import Mst2Codec.Delimited
import Mst2Codec.MetaPage.Change
import Mst2Codec.TreeFrame.Splice
import Mst2Codec.ChunkMap.Update
import Mst2Codec.MetaPage.Lookup
import Mst2Codec.MetaPage.Size
import Mst2Codec.MetaPage.Insert
import Mst2Codec.Namespace.Radix.Live
import Mst2Codec.Snapshot
import Mst2Codec.Namespace.View
import Mst2Codec.Identities
