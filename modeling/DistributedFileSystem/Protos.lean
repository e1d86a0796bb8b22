import DistributedFileSystem.Library.Bytes

/-! The messages a storage node sends to the master (`proto/data.proto`), decoded. -/

namespace DistributedFileSystem

open ByteString

structure FileMappings where
  filename : Bytes
  chunkIds : List Int32
  deriving DecidableEq, Repr

inductive MsgType where
  | join
  | health (fileMappings : List FileMappings)
  deriving DecidableEq, Repr

end DistributedFileSystem
