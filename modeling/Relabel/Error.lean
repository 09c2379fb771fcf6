import Relabel.Constant.Basic
import Relabel.Text.Quoted

/-!
# What can go wrong

Every failure of the library is one of the causes below, and the wording of each is decided here and
nowhere else. A cause belongs to one of five families: the file system refused, the archive container is
damaged, the mapping file is wrong, a class file is malformed, or the input is well formed but asks for
something that cannot be done. `Error.entry` adds the archive entry during which the failure arose.

A class that cannot be found is not a failure: lookups answer with an absent value.
-/

set_option autoImplicit false

namespace Relabel

/-- Why reading or writing a file failed. -/
inductive FileFault where
  | notFound
  | alreadyExists
  | notADirectory
  | isADirectory
  | busy
  | noSuchDevice
  | nameTooLong
  | nulInName
  /-- Compressed data that no compressor produces. -/
  | corruptStream
  /-- Compressed data that ends before its last block does. -/
  | incompleteStream
  /-- Data whose checksum is not the recorded one. -/
  | badChecksum
  /-- Data that ends too early. -/
  | unexpectedEnd
  deriving DecidableEq, Repr

/-- The wording of a file fault. -/
def FileFault.message : FileFault → String
  | .notFound => "No such file or directory (os error 2)"
  | .alreadyExists => "File exists (os error 17)"
  | .notADirectory => "Not a directory (os error 20)"
  | .isADirectory => "Is a directory (os error 21)"
  | .busy => "Device or resource busy (os error 16)"
  | .noSuchDevice => "No such device (os error 19)"
  | .nameTooLong => "File name too long (os error 36)"
  | .nulInName => "file name contained an unexpected NUL byte"
  | .corruptStream => "corrupt deflate stream"
  | .incompleteStream => "incomplete deflate stream"
  | .badChecksum => "Invalid checksum"
  | .unexpectedEnd => "failed to fill whole buffer"

/-- Why a container is not a readable archive. -/
inductive ArchiveFault where
  | tooShort
  | noDirectoryEnd
  | badDirectoryRange
  | badDirectoryHeader
  | badEntryHeader
  | severalDisks
  /-- The end of the directory stands too early for a wide one before it. -/
  | noRoomForWideEnd
  | noWideDirectoryEnd
  /-- An entry would stand beyond the last position that can be written. -/
  | offsetTooLarge
  | badCipherLength
  | badCipherVendor
  | badCipherVersion
  | badCipherStrength
  /-- An entry is marked as ciphered, and nothing says how. -/
  | noCipherField
  | encrypted
  | unknownMethod
  | unreadable (fault : FileFault)
  deriving DecidableEq, Repr

/-- The wording of an archive fault. -/
def ArchiveFault.message : ArchiveFault → String
  | .tooShort => "invalid Zip archive: Invalid zip header"
  | .noDirectoryEnd => "invalid Zip archive: Could not find central directory end"
  | .badDirectoryRange => "invalid Zip archive: Invalid central directory size or offset"
  | .badDirectoryHeader => "invalid Zip archive: Invalid Central Directory header"
  | .badEntryHeader => "invalid Zip archive: Invalid local file header"
  | .severalDisks => "unsupported Zip archive: Support for multi-disk files is not implemented"
  | .noRoomForWideEnd =>
    "invalid Zip archive: File cannot contain ZIP64 central directory end"
  | .noWideDirectoryEnd => "invalid Zip archive: Could not find ZIP64 central directory end"
  | .offsetTooLarge => "invalid Zip archive: Archive header is too large"
  | .badCipherLength =>
    "unsupported Zip archive: AES extra data field has an unsupported length"
  | .badCipherVendor => "invalid Zip archive: Invalid AES vendor"
  | .badCipherVersion => "invalid Zip archive: Invalid AES vendor version"
  | .badCipherStrength => "invalid Zip archive: Invalid AES encryption strength"
  | .noCipherField => "invalid Zip archive: AES encryption without AES extra data field"
  | .encrypted => "unsupported Zip archive: Password required to decrypt file"
  | .unknownMethod => "unsupported Zip archive: Compression method not supported"
  | .unreadable fault => fault.message

/-- Why a mapping file is refused. -/
inductive MappingFault where
  /-- The text is not a JSON object of class records. -/
  | notJson
  /-- The file could be opened but not read. -/
  | unreadable (fault : FileFault)
  | emptyClassName
  | methodKey (source key : String)
  | fieldKey (source key : String)
  /-- A member key of a table that was never checked has no descriptor. -/
  | bareKey (key : String)
  deriving DecidableEq, Repr

/-- The wording of a mapping fault. -/
def MappingFault.message : MappingFault → String
  | .notJson => "invalid JSON"
  | .unreadable fault => fault.message
  | .emptyClassName => "empty class name key"
  | .methodKey source key => source ++ ": method key " ++ Text.quote key ++ " has no descriptor"
  | .fieldKey source key => source ++ ": field key " ++ Text.quote key ++ " has no descriptor"
  | .bareKey key => key

/-- What a lookup in the constant pool asked for. -/
inductive ConstantRole where
  | utf8
  | classRef
  | nameAndType
  | member
  deriving DecidableEq, Repr

/-- The name of a role in messages. -/
def ConstantRole.label : ConstantRole → String
  | .utf8 => "Utf8"
  | .classRef => "Class"
  | .nameAndType => "NameAndType"
  | .member => "member ref"

/-- Why bytes, or a class under construction, are not a class file. -/
inductive ClassFault where
  | truncated (wanted offset : Nat)
  | badMagic (found : UInt32)
  | emptyPool
  | wideOverrun
  | unknownConstant (tag : UInt8) (offset : Nat)
  | badIndex (index : UInt16)
  | unexpectedConstant (index : UInt16) (wanted : ConstantRole) (found : Constant)
  | rawNul
  | truncatedText
  | badLeadByte (byte : UInt8)
  | attributeTail (name : String) (count : Nat)
  | bodyTail (count : Nat)
  | unknownTarget (target : UInt8)
  | unknownElement (tag : UInt8)
  | endBeforeHeader
  | incompleteClass
  | nothingWritten (name : String)
  deriving DecidableEq, Repr

/-- The wording of a class fault. -/
def ClassFault.message : ClassFault → String
  | .truncated wanted offset =>
    "truncated class data: wanted " ++ toString wanted ++ " bytes at offset " ++ toString offset
  | .badMagic found => "bad magic 0x" ++ Text.hexPadded 8 found.toNat ++ ", not a class file"
  | .emptyPool => "constant pool count is zero"
  | .wideOverrun => "wide constant overruns the constant pool"
  | .unknownConstant tag offset =>
    "unknown constant pool tag " ++ toString tag.toNat ++ " at offset " ++ toString offset
  | .badIndex index => "invalid constant pool index " ++ toString index.toNat
  | .unexpectedConstant index wanted found =>
    "constant " ++ toString index.toNat ++ ": expected " ++ wanted.label ++ ", found "
      ++ found.describe
  | .rawNul => "raw NUL byte in modified utf8"
  | .truncatedText => "truncated modified utf8 sequence"
  | .badLeadByte byte => "invalid modified utf8 lead byte 0x" ++ Text.hexPadded 2 byte.toNat
  | .attributeTail name count =>
    "attribute " ++ name ++ " has " ++ toString count ++ " trailing bytes"
  | .bodyTail count => toString count ++ " trailing bytes after class body"
  | .unknownTarget target => "unknown type annotation target 0x" ++ Text.hexPadded 2 target.toNat
  | .unknownElement tag =>
    "unknown annotation element tag " ++ Text.quoteChar (Char.ofNat tag.toNat)
  | .endBeforeHeader => "class ended before its header"
  | .incompleteClass => "class writer did not receive a complete class"
  | .nothingWritten name => name ++ ": writer produced no class"

/-- The lists of a class file whose length has a sixteen bit field. -/
inductive Counted where
  | attributes
  | exceptionHandlers
  | innerClasses
  | localVariables
  | annotations
  | annotationElements
  | arrayElements
  | typeAnnotations
  | recordComponents
  | interfaces
  | fields
  | methods
  deriving DecidableEq, Repr

/-- The name of a list in messages. -/
def Counted.label : Counted → String
  | .attributes => "attributes"
  | .exceptionHandlers => "exception handlers"
  | .innerClasses => "inner classes"
  | .localVariables => "local variables"
  | .annotations => "annotations"
  | .annotationElements => "annotation elements"
  | .arrayElements => "array elements"
  | .typeAnnotations => "type annotations"
  | .recordComponents => "record components"
  | .interfaces => "interfaces"
  | .fields => "fields"
  | .methods => "methods"

/-- The byte strings of a class file whose length has a 32 bit field. -/
inductive Sized where
  | codeArray
  | attribute
  deriving DecidableEq, Repr

/-- The name of a byte string in messages. -/
def Sized.label : Sized → String
  | .codeArray => "code array"
  | .attribute => "attribute"

/-- The kinds of descriptor, as messages name them. -/
inductive DescriptorKind where
  | any
  | field
  | method
  deriving DecidableEq, Repr

/-- The name of a kind of descriptor in messages. -/
def DescriptorKind.label : DescriptorKind → String
  | .any => "descriptor"
  | .field => "field descriptor"
  | .method => "method descriptor"

/-- Why a well formed request cannot be carried out. -/
inductive Refusal where
  | unpairedSurrogate
  | tooMany (what : Counted) (count : Nat)
  | tooLarge (what : Sized) (size : Nat)
  | tooManyParameters
  | poolOverflow
  | widthChange (index : UInt16)
  | textTooLong
  | malformedDescriptor (kind : DescriptorKind) (text : String)
  | malformedSignature (text : String) (offset : Nat)
  | duplicateEntry (name : String)
  /-- A stage supplied by the caller gave up. -/
  | stageFailed (reason : String)
  deriving DecidableEq, Repr

/-- The wording of a refusal. -/
def Refusal.message : Refusal → String
  | .unpairedSurrogate => "utf8 constant contains an unpaired surrogate"
  | .tooMany what count => "too many " ++ what.label ++ ": " ++ toString count
  | .tooLarge what size => what.label ++ " too large: " ++ toString size
  | .tooManyParameters => "more than 255 annotated parameters"
  | .poolOverflow => "constant pool overflow"
  | .widthChange index => "cannot change the width of constant " ++ toString index.toNat
  | .textTooLong => "utf8 constant longer than 65535 bytes"
  | .malformedDescriptor kind text => "malformed " ++ kind.label ++ ": " ++ Text.quote text
  | .malformedSignature text offset =>
    "cannot parse signature " ++ Text.quote text ++ " at offset " ++ toString offset
  | .duplicateEntry name => "two entries are written as " ++ name
  | .stageFailed reason => reason

/-- A failure of the library. -/
inductive Error where
  | file (fault : FileFault)
  | archive (fault : ArchiveFault)
  | mapping (fault : MappingFault)
  | classFile (fault : ClassFault)
  | unsupported (refusal : Refusal)
  /-- A failure while the named archive entry was processed. -/
  | entry (name : String) (cause : Error)
  deriving DecidableEq, Repr

namespace Error

/-- The wording of a failure itself, without what caused it. -/
def message : Error → String
  | .file fault => "I/O error: " ++ fault.message
  | .archive fault => "archive error: " ++ fault.message
  | .mapping fault => "malformed mapping: " ++ fault.message
  | .classFile fault => "malformed class file: " ++ fault.message
  | .unsupported refusal => "unsupported input: " ++ refusal.message
  | .entry name _ => "in entry " ++ name

/-- A failure followed by its causes, outermost first. -/
def chain : Error → List String
  | .file fault => [message (.file fault), fault.message]
  | .archive (.unreadable fault) =>
    [message (.archive (.unreadable fault)), fault.message, fault.message]
  | .archive fault => [message (.archive fault), fault.message]
  | .entry name cause => message (.entry name cause) :: chain cause
  | e => [e.message]

end Error

end Relabel
