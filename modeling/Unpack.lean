import Unpack.Bits.Reader
import Unpack.Bits.Register
import Unpack.Bits.Writer
import Unpack.Bytes
import Unpack.Calendar
import Unpack.Checksum.Adler32
import Unpack.Checksum.Crc32
import Unpack.Command.Arguments
import Unpack.Command.Basic
import Unpack.Command.Extraction
import Unpack.Command.Gzipping
import Unpack.Command.Host
import Unpack.Command.Input
import Unpack.Command.Invocation
import Unpack.Command.Listing
import Unpack.Command.Scene
import Unpack.Command.Verification
import Unpack.Decimal.Binary
import Unpack.Decimal.Fixed
import Unpack.Decimal.Shortest
import Unpack.Deflate.CodeLengths
import Unpack.Deflate.DecodedStream
import Unpack.Deflate.Decoder
import Unpack.Deflate.StoredBlocks
import Unpack.Deflate.Symbols
import Unpack.Encoder
import Unpack.Fault
import Unpack.Files.Basic
import Unpack.Files.Route
import Unpack.Files.Tree
import Unpack.Gzip.Header
import Unpack.Gzip.Member
import Unpack.Gzip.Writer
import Unpack.Huffman.Table
import Unpack.Huffman.Tree
import Unpack.Loop
import Unpack.Machine.FlatTable
import Unpack.Machine.Inflater
import Unpack.Machine.Lengths
import Unpack.Machine.Ring
import Unpack.Machine.Trap
import Unpack.Main
import Unpack.Proofs.Bits.Advance
import Unpack.Proofs.Bits.BitList
import Unpack.Proofs.Bits.Packing
import Unpack.Proofs.Bits.Reader
import Unpack.Proofs.Bits.Register
import Unpack.Proofs.Bits.Stream
import Unpack.Proofs.Bits.Words
import Unpack.Proofs.Bits.Writer
import Unpack.Proofs.Bytes.Fields
import Unpack.Proofs.Calendar
import Unpack.Proofs.Checksum.Adler32
import Unpack.Proofs.Checksum.AdlerSums
import Unpack.Proofs.Checksum.Bitwise
import Unpack.Proofs.Checksum.Crc32
import Unpack.Proofs.Deflate.Accounting
import Unpack.Proofs.Deflate.Announcement
import Unpack.Proofs.Deflate.CodeLengths
import Unpack.Proofs.Deflate.DecodedRun
import Unpack.Proofs.Deflate.DecodedStream
import Unpack.Proofs.Deflate.Decoder
import Unpack.Proofs.Deflate.Engine
import Unpack.Proofs.Deflate.Fatal
import Unpack.Proofs.Deflate.Forward
import Unpack.Proofs.Deflate.Leads
import Unpack.Proofs.Deflate.Matches
import Unpack.Proofs.Deflate.OneShot
import Unpack.Proofs.Deflate.Pieces
import Unpack.Proofs.Deflate.Reference.Announcement
import Unpack.Proofs.Deflate.Reference.Parts
import Unpack.Proofs.Deflate.Reference.Stream
import Unpack.Proofs.Deflate.ReliableStream
import Unpack.Proofs.Deflate.Requests
import Unpack.Proofs.Deflate.Resting
import Unpack.Proofs.Deflate.Sessions
import Unpack.Proofs.Deflate.Sound.CodeLengths
import Unpack.Proofs.Deflate.Sound.Step
import Unpack.Proofs.Deflate.Sound.Symbols
import Unpack.Proofs.Deflate.Step
import Unpack.Proofs.Deflate.StoredBlocks
import Unpack.Proofs.Deflate.Stuck
import Unpack.Proofs.Deflate.Termination
import Unpack.Proofs.Gzip.Accepted
import Unpack.Proofs.Gzip.Codec
import Unpack.Proofs.Gzip.Header
import Unpack.Proofs.Gzip.Member
import Unpack.Proofs.Gzip.ReadBack
import Unpack.Proofs.Gzip.Rewriting
import Unpack.Proofs.Gzip.RoundTrip
import Unpack.Proofs.Gzip.Trailer
import Unpack.Proofs.Huffman.Canonical
import Unpack.Proofs.Huffman.Layout
import Unpack.Proofs.Huffman.Lookup
import Unpack.Proofs.Huffman.PrefixTree
import Unpack.Proofs.Machine.FlatTable.Overflow
import Unpack.Proofs.Huffman.Stems
import Unpack.Proofs.Loop
import Unpack.Proofs.Machine.FlatTable.Build
import Unpack.Proofs.Machine.FlatTable.Canonical
import Unpack.Proofs.Machine.FlatTable.Entries
import Unpack.Proofs.Machine.FlatTable.Layout
import Unpack.Proofs.Machine.FlatTable.Pointers
import Unpack.Proofs.Machine.FlatTable.Symbol
import Unpack.Proofs.Machine.Lengths
import Unpack.Proofs.Machine.Requests
import Unpack.Proofs.Machine.Ring
import Unpack.Proofs.Machine.RingLog
import Unpack.Proofs.Machine.Steps
import Unpack.Proofs.Machine.Symbols
import Unpack.Proofs.Machine.Trap
import Unpack.Proofs.Sink
import Unpack.Proofs.Source.Collect
import Unpack.Proofs.Source.Gives
import Unpack.Proofs.Source.Mirrors
import Unpack.Proofs.Source.Reliable
import Unpack.Proofs.Source.Script
import Unpack.Proofs.Source.Steady
import Unpack.Proofs.Text.Latin1
import Unpack.Proofs.Window.Log
import Unpack.Proofs.Window.Refinement
import Unpack.Proofs.Zip.Building
import Unpack.Proofs.Zip.Comment
import Unpack.Proofs.Zip.Framing
import Unpack.Proofs.Zip.Integrity
import Unpack.Proofs.Zip.Opening
import Unpack.Proofs.Zip.Records
import Unpack.Proofs.Zip.RoundTrip
import Unpack.Proofs.Zip.Session
import Unpack.Proofs.Zip.Sharing
import Unpack.Proofs.Zip.Stores
import Unpack.Proofs.Zlib.Decompress
import Unpack.Proofs.Zlib.Dictionary
import Unpack.Proofs.Zlib.Header
import Unpack.Sink
import Unpack.Source.Basic
import Unpack.Source.Buffered
import Unpack.Source.Collect
import Unpack.Source.RandomAccess
import Unpack.Source.Script
import Unpack.Text.Glob
import Unpack.Text.Json
import Unpack.Text.Latin1
import Unpack.Text.Numeral
import Unpack.Text.Path
import Unpack.Text.Utf8
import Unpack.Window
import Unpack.Zip.Archive
import Unpack.Zip.Builder
import Unpack.Zip.Directory
import Unpack.Zip.Entry
import Unpack.Zip.EntryStream
import Unpack.Zip.Record
import Unpack.Zip.Selection
import Unpack.Zip.Stamp
import Unpack.Zlib
import Unpack.Proofs.Zip.Stamp
import Unpack.Proofs.Command.Extraction
import Unpack.Proofs.Zip.Rewriting
import Unpack.Proofs.Zip.RealDates
