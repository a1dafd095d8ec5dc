import Fuse3P7zip.Lib.StdMap
import Fuse3P7zip.Lib.FsPath
import Fuse3P7zip.Lib.Bytes
import Fuse3P7zip.Lib.Client
import Fuse3P7zip.Lib.Stdio
import Fuse3P7zip.Lib.Frontier
import Fuse3P7zip.Com
import Fuse3P7zip.Strings
import Fuse3P7zip.WriteStream
import Fuse3P7zip.Extractor
import Fuse3P7zip.Callbacks
import Fuse3P7zip.Archive
import Fuse3P7zip.Tree
import Fuse3P7zip.TreeSpec
import Fuse3P7zip.Fuse
import Fuse3P7zip.Walk
import Fuse3P7zip.Kernel
import Fuse3P7zip.Opening
import Fuse3P7zip.Sizes
import Fuse3P7zip.Handles
import Fuse3P7zip.Lib.RefCount
import Fuse3P7zip.Ownership
import Fuse3P7zip.ReadStream
import Fuse3P7zip.WriteRefinement
import Fuse3P7zip.Keys
import Fuse3P7zip.Times
import Fuse3P7zip.Format
import Fuse3P7zip.CommandLine
import Fuse3P7zip.Encoding
import Fuse3P7zip.Lib.Shell
import Fuse3P7zip.Password
import Fuse3P7zip.Lib.Lines
import Fuse3P7zip.Passwords
import Fuse3P7zip.Codepage
import Fuse3P7zip.Iteration
import Fuse3P7zip.OpenArchive
import Fuse3P7zip.Mounting
import Fuse3P7zip.ComObject
import Fuse3P7zip.Lib.Chunks
import Fuse3P7zip.Sessions
import Fuse3P7zip.Lib.UniquePtr
import Fuse3P7zip.IteratorValues
import Fuse3P7zip.Remount
import Fuse3P7zip.Lib.Utf8
import Fuse3P7zip.Unicode
import Fuse3P7zip.Detection
import Fuse3P7zip.Lib.Raii
import Fuse3P7zip.Main
import Fuse3P7zip.Charset
import Fuse3P7zip.PasswordText
import Fuse3P7zip.FileSystem
import Fuse3P7zip.Serving
import Fuse3P7zip.Repeatable
import Fuse3P7zip.Extraction
