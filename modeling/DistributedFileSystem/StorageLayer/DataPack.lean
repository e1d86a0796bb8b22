import DistributedFileSystem.Library.WireFormat
import DistributedFileSystem.StorageLayer.FileState

/-!
How protobuf-c packs the messages of a storage node (`proto/data.pb-c.c`). It
leaves out an empty string and an empty list, and never looks into a string.
-/

namespace DistributedFileSystem.StorageLayer

open ByteString WireFormat

/-- A negative `int32` takes ten bytes, as the 64-bit number of the same residue. -/
def int32Value (value : Int32) : Nat := (value.toInt % 2 ^ 64).toNat

def packUnlessEmpty (number : Nat) (payload : Bytes) : Bytes :=
  if payload = [] then [] else delimitedField number payload

def FileMappings.pack (mapping : FileMappings) : Bytes :=
  packUnlessEmpty 1 mapping.filename ++
    packUnlessEmpty 2 (mapping.chunkIds.flatMap fun chunkId => varint (int32Value chunkId))

def HealthMessage.pack (fileMappings : List FileMappings) : Bytes :=
  fileMappings.flatMap fun mapping => delimitedField 1 (FileMappings.pack mapping)

def MessageFromStorageToMaster.pack : MsgType → Bytes
  | .join => delimitedField 1 []
  | .health fileMappings => delimitedField 2 (HealthMessage.pack fileMappings)

def joinMessage : Bytes := MessageFromStorageToMaster.pack .join

def returnCurrentStateEncodedInProtobufs (state : StorageStateOuter) : Bytes :=
  MessageFromStorageToMaster.pack (returnCurrentState state)

theorem int32Value_lt (value : Int32) : int32Value value < 2 ^ 64 := by
  have positive := Int.emod_nonneg value.toInt (b := 2 ^ 64) (by omega)
  have less := Int.emod_lt_of_pos value.toInt (b := 2 ^ 64) (by omega)
  rw [int32Value]
  omega

theorem ofInt_int32Value (value : Int32) : Int32.ofInt (int32Value value) = value := by
  have lower := value.le_toInt
  have upper := value.toInt_lt
  have positive := Int.emod_nonneg value.toInt (b := 2 ^ 64) (by omega)
  apply Int32.toInt_inj.mp
  rw [Int32.toInt_ofInt, int32Value, Int.toNat_of_nonneg positive, Int.bmod_def, Int32.size]
  omega

theorem returnCurrentStateEncodedInProtobufs_eq (state : StorageStateOuter) :
    returnCurrentStateEncodedInProtobufs state =
      delimitedField 2 (HealthMessage.pack (state.fileToChunkState.map mappingOf)) := by
  rw [returnCurrentStateEncodedInProtobufs, returnCurrentState_eq]
  rfl

end DistributedFileSystem.StorageLayer
