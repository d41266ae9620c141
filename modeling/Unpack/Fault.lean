import Unpack.Bytes
import Unpack.Text.Numeral

namespace Unpack

-- What kind of trouble an input or output operation met.
inductive IoKind where
  | notFound
  | permissionDenied
  | alreadyExists
  | notADirectory
  | isADirectory
  | invalidInput
  | invalidData
  | invalidFilename
  | unexpectedEof
  | interrupted
  | other
  deriving Repr, DecidableEq

-- A failure of the outside world: a file, a pipe, a byte source.
structure IoFault where
  kind : IoKind
  text : String
  deriving Repr, DecidableEq

-- The checksums that streams and archives carry.
inductive ChecksumKind where
  | crc32
  | adler32
  | headerCrc16
  deriving Repr, DecidableEq

def ChecksumKind.name : ChecksumKind → String
  | .crc32 => "CRC-32"
  | .adler32 => "Adler-32"
  | .headerCrc16 => "GZIP header CRC-16"

-- The two alphabets whose code lengths a dynamic block announces.
inductive Alphabet where
  | literal
  | distance
  deriving Repr, DecidableEq

def Alphabet.name : Alphabet → String
  | .literal => "literal/length"
  | .distance => "distance"

-- Why a list of code lengths is no prefix code.
inductive TableFlaw where
  | lengthTooLong (length symbol : Nat)
  | overSubscribed (points : Nat)
  | incomplete (points : Nat)
  | noEndOfBlock
  | inCodeLengthCode (flaw : TableFlaw)
  | described (text : String)
  deriving Repr, DecidableEq

def TableFlaw.message : TableFlaw → String
  | .lengthTooLong length symbol =>
      s!"code length {length} for symbol {symbol} exceeds maximum 15"
  | .overSubscribed points => s!"over-subscribed code: {points} of 65536 code points used"
  | .incomplete points => s!"incomplete code: {points} of 65536 code points used"
  | .noEndOfBlock => "literal/length code has no end-of-block symbol"
  | .inCodeLengthCode flaw => "code length code: " ++ flaw.message
  | .described text => text

-- What is wrong with compressed data.
inductive Corruption where
  | storedLength (length complement : Nat)
  | reservedBlock
  | literalSymbol (symbol : Nat)
  | distanceSymbol (symbol : Nat)
  | repeatAtStart (alphabet : Alphabet)
  | repeatOverrun (count declared : Nat)
  | described (text : String)
  deriving Repr, DecidableEq

def Corruption.message : Corruption → String
  | .storedLength length complement =>
      "stored block length " ++ Text.hex0x 4 length ++ " does not match complement "
        ++ Text.hex0x 4 complement
  | .reservedBlock => "reserved block type 3"
  | .literalSymbol symbol => s!"invalid literal/length symbol {symbol}"
  | .distanceSymbol symbol => s!"invalid distance symbol {symbol}"
  | .repeatAtStart alphabet =>
      "repeat of previous length at start of " ++ alphabet.name ++ " lengths"
  | .repeatOverrun count declared =>
      s!"repeat of {count} lengths overruns {declared} declared code lengths"
  | .described text => text

-- Quantities that the 32-bit archive layout bounds.
inductive BoundedQuantity where
  | entrySize
  | compressedSize
  | localOffset
  | directoryOffset
  | directorySize
  deriving Repr, DecidableEq

def BoundedQuantity.name : BoundedQuantity → String
  | .entrySize => "entry size"
  | .compressedSize => "compressed size"
  | .localOffset => "local header offset"
  | .directoryOffset => "central directory offset"
  | .directorySize => "central directory size"

-- What is wrong with a header, read or about to be written.
inductive HeaderFlaw where
  | zlibCheck (header : Nat)
  | zlibWindow (exponent : Nat)
  | lateDictionary
  | unexpectedDictionary
  | dictionaryAfterStart
  | reservedFlags (flags : Nat)
  | extraTooLong
  | multiDisk
  | emptyName
  | nameTooLong (bytes : Nat)
  | beyondZip32 (quantity : BoundedQuantity) (value : Nat)
  | tooManyEntries (count : Nat)
  | commentTooLong
  | described (text : String)
  deriving Repr, DecidableEq

def HeaderFlaw.message : HeaderFlaw → String
  | .zlibCheck header =>
      "zlib header check failed: " ++ Text.hex0x 4 header ++ " is not a multiple of 31"
  | .zlibWindow exponent => s!"zlib window size 2^{exponent} exceeds 32 KiB"
  | .lateDictionary => "preset dictionary set after output was produced"
  | .unexpectedDictionary => "zlib stream is not expecting a dictionary"
  | .dictionaryAfterStart => "dictionary must be set before decoding starts"
  | .reservedFlags flags => "reserved GZIP flag bits set: " ++ Text.hex0x 2 flags
  | .extraTooLong => "GZIP extra field longer than 65535 bytes"
  | .multiDisk => "multi-disk ZIP archives are not supported"
  | .emptyName => "empty ZIP entry name"
  | .nameTooLong bytes => s!"ZIP entry name of {bytes} bytes is too long"
  | .beyondZip32 quantity value =>
      quantity.name ++ s!" of {value} exceeds the ZIP32 limit"
  | .tooManyEntries count => s!"{count} entries exceed the ZIP32 limit"
  | .commentTooLong => "ZIP comment is too long"
  | .described text => text

-- The fields that a local record must share with the central directory.
inductive SharedField where
  | method
  | nameLength
  deriving Repr, DecidableEq

def SharedField.name : SharedField → String
  | .method => "compression method"
  | .nameLength => "name length"

-- Every way in which an operation of this library fails.
inductive Fault where
  | io (cause : IoFault)
  | invalidMagic (expected found : ByteArray)
  | unsupportedMethod (method : String)
  | checksumMismatch (kind : ChecksumKind) (expected computed : UInt32)
  | invalidCode (bit : Nat)
  | invalidTable (flaw : TableFlaw)
  | corrupted (bit : Nat) (cause : Corruption)
  | invalidHeader (flaw : HeaderFlaw)
  | headerMismatch (entry : String) (field : SharedField) (central found : Nat)
  | sizeMismatch (expected actual : Nat)
  | unexpectedEnd (reading : String)
  | invalidDistance (distance history : Nat)
  | windowFull (requested free : Nat)
  | entryNotFound (name : String)
  | archiveClosed
  | dictionaryRequired (adler : UInt32)
  -- a sum or difference out of the range of its numbers; the program stops there
  | overflow
  deriving DecidableEq

namespace Fault

def message : Fault → String
  | .io cause => "I/O error: " ++ cause.text
  | .invalidMagic expected found =>
      "Invalid magic number: expected " ++ Text.byteList expected ++ ", found "
        ++ Text.byteList found
  | .unsupportedMethod method => "Unsupported compression method: " ++ method
  | .checksumMismatch kind expected computed =>
      kind.name ++ " mismatch: expected " ++ Text.hex0x 8 expected.toNat ++ ", computed "
        ++ Text.hex0x 8 computed.toNat
  | .invalidCode bit => s!"Invalid Huffman code at bit position {bit}"
  | .invalidTable flaw => "Invalid Huffman table: " ++ flaw.message
  | .corrupted bit cause => s!"Corrupted data at bit {bit}: " ++ cause.message
  | .invalidHeader flaw => "Invalid header: " ++ flaw.message
  | .headerMismatch entry field central found =>
      "Header mismatch in " ++ entry ++ ": " ++ field.name ++ s!" is {found} in local header, "
        ++ s!"{central} in central directory"
  | .sizeMismatch expected actual =>
      s!"Size mismatch: expected {expected} bytes, got {actual}"
  | .unexpectedEnd reading => "Unexpected end of input: " ++ reading
  | .invalidDistance distance history =>
      s!"Invalid back-reference distance: {distance} exceeds history size {history}"
  | .windowFull requested free =>
      s!"Output window full: {requested} bytes requested, {free} free"
  | .entryNotFound name => "Entry not found: " ++ name
  | .archiveClosed => "Archive already closed"
  | .dictionaryRequired adler =>
      "Preset dictionary required (Adler-32 " ++ Text.hex0x 8 adler.toNat ++ ")"
  | .overflow => ""

-- Whether the fault blames the data, not the outside world or the caller.
def isFormat : Fault → Bool
  | .io _ | .windowFull .. | .archiveClosed | .entryNotFound _ | .dictionaryRequired _ | .overflow =>
      false
  | _ => true

-- The fault as a failing read or write reports it. A fault of the outside
-- world passes through unchanged, any other is described by its message.
def toIo : Fault → IoFault
  | .io cause => cause
  | fault@(.unexpectedEnd _) => ⟨.unexpectedEof, fault.message⟩
  | fault@.archiveClosed => ⟨.other, fault.message⟩
  | fault@(.windowFull ..) => ⟨.other, fault.message⟩
  | fault@.overflow => ⟨.other, fault.message⟩
  | fault => ⟨.invalidData, fault.message⟩

def ioKind (fault : Fault) : IoKind :=
  fault.toIo.kind

-- An interrupted operation did nothing and may be tried again.
def isInterruption (fault : Fault) : Bool :=
  fault.ioKind == .interrupted

end Fault

-- Sums and differences of 32-bit numbers, which stop the program where they
-- leave the range.
namespace Checked

def add (x y : UInt32) : Except Fault UInt32 :=
  if x.toNat + y.toNat < 0x100000000 then .ok (x + y) else .error .overflow

def sub (x y : UInt32) : Except Fault UInt32 :=
  if y ≤ x then .ok (x - y) else .error .overflow

end Checked

end Unpack
