import GameData.Text.Literal
import GameData.Text.Utf8

/-!
Why an operation failed. A fault names its cause; `Fault.message` holds the wording of all of them.
-/
namespace GameData

/-- A packed field that accepts a range of integers. -/
inductive FieldRange where
  | byte | sbyte | short | sshort | word | sword | long
  deriving DecidableEq

def FieldRange.message : FieldRange → String
  | .byte => "ubyte format requires 0 <= number <= 255"
  | .sbyte => "byte format requires -128 <= number <= 127"
  | .short => "ushort format requires 0 <= number <= 65535"
  | .sshort => "short format requires (-32768) <= number <= 32767"
  | .word => "'I' format requires 0 <= number <= 4294967295"
  | .sword => "'i' format requires -2147483648 <= number <= 2147483647"
  | .long => "'L' format requires 0 <= number <= 4294967295"

/-- A record that cannot be packed or unpacked. -/
inductive RecordFault where
  /-- Not exactly as many bytes as the record takes. -/
  | size (expected : Nat)
  /-- Not a whole number of records. -/
  | ragged (size : Nat)
  | count (expected got : Nat)
  | range (f : FieldRange)
  /-- An integer that no field of at most 64 bits holds. -/
  | magnitude
  | notInteger
  | notNumber
  | notBytes
  deriving DecidableEq

def RecordFault.message : RecordFault → String
  | .size n => s!"unpack requires a buffer of {n} bytes"
  | .ragged n => s!"iterative unpacking requires a buffer of a multiple of {n} bytes"
  | .count expected got => s!"pack expected {expected} items for packing (got {got})"
  | .range f => f.message
  | .magnitude => "argument out of range"
  | .notInteger => "required argument is not an integer"
  | .notNumber => "required argument is not a float"
  | .notBytes => "argument for 's' must be a bytes object"

/-- A condition on the contents of a file that does not hold. -/
inductive Check where
  | signature | majorVersion | minorVersion | firstReserved | secondReserved | version
  | codeIsLast | endOfFile | endOfChunk
  | containerMark | containerSize | containerAlign | containerSkip | containerStart | containerEnd
  | imageMode (mode : String) | imageWidth (width : Nat) | imageHeight (height : Nat)
  deriving DecidableEq

def Check.message : Check → String
  | .signature => "Unexpected signature"
  | .majorVersion => "Unexpected ver_major"
  | .minorVersion => "Unexpected ver_minor"
  | .firstReserved => "Unexpected unknown_1"
  | .secondReserved => "Unexpected unknown_2"
  | .version => "Unexpected version"
  | .codeIsLast => "Exprected end of file"
  | .endOfFile => "Expected end of file"
  | .endOfChunk => "Expect end of chunk"
  | .containerMark => "signature must be b'ILFF'"
  | .containerSize => "wrong size"
  | .containerAlign => "align must be 4"
  | .containerSkip => "skip must be 0"
  | .containerStart => "wrong tell"
  | .containerEnd => "parsing failed"
  | .imageMode mode => "Unsuported image mode " ++ mode
  | .imageWidth width => s!"Image width is now power of 2, {width}"
  | .imageHeight height => s!"Image height is now power of 2, {height}"

/-- A part of a calendar date or time of day. -/
inductive DatePart where
  | year (n : Nat) | month | day | hour | minute | second | microsecond
  deriving DecidableEq

def DatePart.message : DatePart → String
  | .year n => s!"year {n} is out of range"
  | .month => "month must be in 1..12"
  | .day => "day is out of range for month"
  | .hour => "hour must be in 0..23"
  | .minute => "minute must be in 0..59"
  | .second => "second must be in 0..59"
  | .microsecond => "microsecond must be in 0..999999"

/-- A value that an operation does not accept. -/
inductive ValueFault where
  | unhandledOpcode | unsupportedOpcode
  | unexpectedNode (kind : String) | unexpectedCallee (name : String)
  | unexpectedItem | unexpectedTask
  | unexpectedFourcc | unexpectedChunk
  | soundSignature | soundPacking | soundWidth | soundChannels | soundRate
  | wrongFourcc | wrongAlign
  | tableFormat
  | unknownBlock (mark : Bytes) (offset : Nat)
  | notAContainer
  | closedChunk | closedStream | closedRead | closedSeek
  | readLength | offsetSize | negativeSeek (n : Int)
  | raggedTable | raggedWords
  | reshape (size : Nat) (shape : List Int)
  | date (part : DatePart)
  | fewPixels | logarithm | emptyMaximum | ambiguousTruth
  | suffix (s : String) | emptyName (path : String)
  | binaryNumeral (s : String)
  | decimalNumeral (s : String)
  | markupText
  | noFieldNamed (name : String)
  deriving DecidableEq

def ValueFault.message : ValueFault → String
  | .unhandledOpcode => "Unhandled opcode"
  | .unsupportedOpcode => "Unsupported opcode"
  | .unexpectedNode kind => s!"Unexpected node <class 'plugins.qvm.ast.{kind}'>"
  | .unexpectedCallee name => s!"Unexpected callee {name}"
  | .unexpectedItem => "Unexpected item type"
  | .unexpectedTask => ""
  | .unexpectedFourcc => "Unexpected fourcc"
  | .unexpectedChunk => ""
  | .soundSignature => "Unexpected signature"
  | .soundPacking => "Unexpected soundpack method"
  | .soundWidth => "Unexpected sample width"
  | .soundChannels => "Unexpected channels count"
  | .soundRate => "Unexpected framerate"
  | .wrongFourcc => "Wrong fourcc"
  | .wrongAlign => "Wrong dtalgn"
  | .tableFormat => "Format error."
  | .unknownBlock mark offset => "(" ++ Literal.ofBytes mark ++ ", " ++ toString offset ++ ")"
  | .notAContainer => "file expected str or BytesIO"
  | .closedChunk => "I/O operation on closed file"
  | .closedStream => "I/O operation on closed file."
  | .closedRead => "read of closed file"
  | .closedSeek => "seek of closed file"
  | .readLength => "read length must be non-negative or -1"
  | .offsetSize => "cannot fit 'int' into an offset-sized integer"
  | .negativeSeek n => s!"negative seek value {n}"
  | .raggedTable => "buffer size must be a multiple of element size"
  | .raggedWords => "bytes length not a multiple of item size"
  | .reshape size shape =>
    s!"cannot reshape array of size {size} into shape (" ++ ",".intercalate (shape.map toString) ++ ")"
  | .date part => part.message
  | .fewPixels => "not enough image data"
  | .logarithm => "math domain error"
  | .emptyMaximum => "max() arg is an empty sequence"
  | .ambiguousTruth =>
    "The truth value of an array with more than one element is ambiguous. Use a.any() or a.all()"
  | .suffix s => "Invalid suffix " ++ Literal.ofText s
  | .emptyName path => "PosixPath(" ++ Literal.ofText path ++ ") has an empty name"
  | .binaryNumeral s => "invalid literal for int() with base 2: " ++ Literal.ofText s
  | .decimalNumeral s => "invalid literal for int() with base 10: " ++ Literal.ofText s
  | .markupText => "All strings must be XML compatible: Unicode or ASCII, no NULL bytes or control characters"
  | .noFieldNamed name => "no field of name " ++ name

/-- A position that a sequence does not have. -/
inductive IndexFault where
  | list | emptyPop | bytes | array | record (index : Int)
  | axis (index : Int) (size : Nat)
  deriving DecidableEq

def IndexFault.message : IndexFault → String
  | .list => "list index out of range"
  | .emptyPop => "pop from empty list"
  | .bytes => "index out of range"
  | .array => "array index out of range"
  | .record index => s!"invalid index ({index})"
  | .axis index size => s!"index {index} is out of bounds for axis 0 with size {size}"

/-- What the file system refuses. -/
inductive SystemFault where
  | notFound | alreadyThere | notDirectory | isDirectory | notEmpty | invalidArgument | cannotSeek
  | imageMode (mode kind : String)
  | unknownExtension (extension : String)
  | sameFile (source target : String)
  deriving DecidableEq

def SystemFault.message : SystemFault → String
  | .notFound => "No such file or directory"
  | .alreadyThere => "File exists"
  | .notDirectory => "Not a directory"
  | .isDirectory => "Is a directory"
  | .notEmpty => "Directory not empty"
  | .invalidArgument => "Invalid argument"
  | .cannotSeek => "cannot seek"
  | .imageMode mode kind => s!"cannot write mode {mode} as {kind}"
  | .unknownExtension extension => s!"unknown file extension: {extension}"
  | .sameFile source target => Literal.ofText source ++ " and " ++ Literal.ofText target ++ " are the same file"

/-- A command line that a command does not accept. -/
inductive UsageFault where
  | missing (parameter : String)
  | noCommand (name : String)
  | extra (arguments : List String)
  | noOption (name : String)
  | needlessValue (option : String)
  | other (text : String)
  deriving DecidableEq

def UsageFault.message : UsageFault → String
  | .missing parameter => "Missing parameter: " ++ parameter
  | .noCommand name => "No such command " ++ Literal.ofText name ++ "."
  | .extra arguments =>
    "Got unexpected extra argument" ++ (if arguments.length = 1 then " (" else "s (")
      ++ " ".intercalate arguments ++ ")"
  | .noOption name => "No such option: " ++ name
  | .needlessValue option => "Option " ++ Literal.ofText option ++ " does not take a value."
  | .other text => text

/-- A step into a structure: a field or a position in a list. -/
inductive Step where
  | field (name : String)
  | position (n : Nat)
  deriving DecidableEq

/-- One complaint about a record that is being checked. -/
structure Issue where
  place : List Step
  message : String
  code : String
  /-- What the complaint refers to, as it is written in a report; empty when there is nothing. -/
  context : String := ""
  deriving DecidableEq

inductive Fault where
  | record (f : RecordFault)
  | check (c : Check)
  | value (v : ValueFault)
  | index (i : IndexFault)
  /-- A look-up under a key that is not there; the key is given as it is reported. -/
  | key (literal : String)
  /-- A field that was never set. -/
  | unset (owner field : String)
  | noMember (owner name : String)
  | undefined (name : String)
  | unassigned (name : String)
  /-- An operation on a value of the wrong type. -/
  | mismatch
  | overflow
  | endOfFile
  /-- A position outside the window of a chunk. -/
  | outsideChunk
  /-- A table that does not stand where the header says. -/
  | displacedTable
  | notUtf8 (m : Utf8.Malformed)
  | system (f : SystemFault)
  | divisionByZero
  | notImplemented
  | exporting (text : String)
  | wave (text : String)
  | unidentifiedImage
  | invalid (issues : List Issue)
  | exit (code : Nat)
  | usage (f : UsageFault)
  /-- The nesting exceeds every bound computed from the input. -/
  | tooDeep
  deriving DecidableEq

/-- `byte 0xff in position 0`, `bytes in position 0-1`. -/
def Utf8.Malformed.message (m : Utf8.Malformed) : String :=
  let place :=
    match m.bytes with
    | [b] => "byte 0x" ++ String.ofList (Literal.hex 2 b.toNat) ++ s!" in position {m.offset}"
    | bs => s!"bytes in position {m.offset}-{m.offset + bs.length - 1}"
  "'utf-8' codec can't decode " ++ place ++ ": " ++ m.reason.text

def Fault.message : Fault → String
  | .record f => f.message
  | .check c => c.message
  | .value v => v.message
  | .index i => i.message
  | .key literal => literal
  | .unset owner field => s!"'{owner}' object has no attribute '{field}'"
  | .noMember owner name => s!"module '{owner}' has no attribute '{name}'"
  | .undefined name => s!"name '{name}' is not defined"
  | .unassigned name => s!"cannot access local variable '{name}' where it is not associated with a value"
  | .mismatch | .overflow | .endOfFile | .outsideChunk | .notImplemented | .unidentifiedImage | .invalid _
  | .tooDeep => ""
  | .displacedTable => "Format error."
  | .notUtf8 m => m.message
  | .system f => f.message
  | .divisionByZero => "integer modulo by zero"
  | .exporting text | .wave text => text
  | .exit code => toString code
  | .usage f => f.message

end GameData
