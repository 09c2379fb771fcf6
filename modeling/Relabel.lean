import Relabel.Access
import Relabel.Attribute.Basic
import Relabel.Attribute.Decode
import Relabel.Attribute.Encode
import Relabel.Bytes.Cursor
import Relabel.Bytes.Encoding
import Relabel.Class.Basic
import Relabel.Class.File
import Relabel.Class.Model
import Relabel.Class.Name
import Relabel.Class.Stream
import Relabel.Class.Writer
import Relabel.CommandLine.Arguments
import Relabel.CommandLine.Report
import Relabel.CommandLine.Run
import Relabel.Constant.Basic
import Relabel.Constant.Codec
import Relabel.Constant.Pool
import Relabel.Dict
import Relabel.Digest.Crc32
import Relabel.Digest.Sha256
import Relabel.Effect
import Relabel.Error
import Relabel.Files.Path
import Relabel.Files.Tree
import Relabel.Hierarchy.Provider
import Relabel.Hierarchy.Resolver
import Relabel.Hierarchy.Supertypes
import Relabel.Jar.ClassPath
import Relabel.Jar.Remap
import Relabel.Jar.Repack
import Relabel.Json.Printer
import Relabel.Json.Reader
import Relabel.Json.Token
import Relabel.Json.Value
import Relabel.Main
import Relabel.Mapping.Format
import Relabel.Mapping.Inverse
import Relabel.Mapping.Load
import Relabel.Mapping.Table
import Relabel.Naming.ClassNames
import Relabel.Naming.Renaming
import Relabel.Pipeline
import Relabel.Proofs.Bytes.Codec
import Relabel.Proofs.Class.Sink
import Relabel.Proofs.Constant.Pool
import Relabel.Proofs.Dict
import Relabel.Proofs.Effect
import Relabel.Proofs.Files.Tree
import Relabel.Proofs.Hierarchy.Ancestry
import Relabel.Proofs.Hierarchy.Inheritance
import Relabel.Proofs.Hierarchy.Resolver
import Relabel.Proofs.Rename.Attributes
import Relabel.Proofs.Rename.Class
import Relabel.Proofs.Rename.Constants
import Relabel.Proofs.Rename.Frame
import Relabel.Proofs.Rename.Sequence
import Relabel.Proofs.Rename.Symbols
import Relabel.Proofs.Text.ModifiedUtf8
import Relabel.Stage.Patch
import Relabel.Stage.Rename
import Relabel.Text.Blank
import Relabel.Text.Hex
import Relabel.Text.ModifiedUtf8
import Relabel.Text.Quoted
import Relabel.Text.Split
import Relabel.Text.Unprintable
import Relabel.Text.Utf16
import Relabel.Type.Descriptor
import Relabel.Type.Signature
import Relabel.Zip.Directory
import Relabel.Zip.DirectoryEnd
import Relabel.Zip.Entry
import Relabel.Zip.Extra
import Relabel.Zip.Image
import Relabel.Zip.Inflate
import Relabel.Zip.Name
import Relabel.Zip.Writer
import Relabel.Proofs.Constant.Codec
import Relabel.Proofs.Constant.Reachable
import Relabel.Proofs.Attribute.Codec
import Relabel.Proofs.Attribute.Parts
import Relabel.Proofs.Class.Replay
import Relabel.Proofs.Class.Codec
import Relabel.Proofs.Class.RoundTrip
import Relabel.Proofs.Hierarchy.Image
import Relabel.Proofs.Mapping.Inverse
import Relabel.Proofs.Mapping.Restore
import Relabel.Proofs.Pipeline
import Relabel.Proofs.Constant.Interning
import Relabel.Proofs.Hierarchy.Termination
import Relabel.Proofs.Hierarchy.Requests
import Relabel.Proofs.Jar.Repack
import Relabel.Proofs.Type.Signature
import Relabel.Proofs.Rename.Mention
import Relabel.Proofs.Rename.Unchanged
import Relabel.Proofs.Rename.Identity
import Relabel.Proofs.Json.Token
import Relabel.Proofs.Json.RoundTrip
import Relabel.Proofs.Mapping.Format
import Relabel.Proofs.Type.Grammar
import Relabel.Proofs.Type.Scanner
import Relabel.Proofs.Naming.ClassNames
import Relabel.Proofs.Type.Nesting
import Relabel.Proofs.Rename.InnerClasses
import Relabel.Proofs.Type.Template
import Relabel.Proofs.Type.SignatureTemplate
import Relabel.Proofs.CommandLine.Reverse
import Relabel.Proofs.Mapping.Involution
import Relabel.Proofs.Naming.InputRows
import Relabel.Proofs.Attribute.Debug
import Relabel.Proofs.Naming.Retraction
import Relabel.Proofs.Class.Debug
import Relabel.Proofs.Class.Arrivals
import Relabel.Proofs.Stage.Patch
import Relabel.Proofs.Jar.Remap
import Relabel.Proofs.Jar.Output
import Relabel.Proofs.Hierarchy.Failure
import Relabel.Proofs.Constant.Forgetting
import Relabel.Proofs.Rename.EnumConstants
import Relabel.Proofs.Class.Writing
import Relabel.Proofs.Text.Spelling
import Relabel.Proofs.Naming.LongestName
import Relabel.Proofs.Naming.Shadowing
