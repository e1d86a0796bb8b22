import DistributedFileSystem.Library.WireFormat
import DistributedFileSystem.Protos

/-!
How prost decodes the messages of a storage node (`protos/data.rs`): field by
field into a value that starts as the default, fields it does not know skipped.
A `string` has to be UTF-8. Groups are left out.
-/

namespace DistributedFileSystem.Master

open ByteString WireFormat

def mergeFields {α : Type} (mergeField : α → Field → Option α) (value : α) (buf : Bytes) :
    Option α :=
  (readFields buf).bind fun fields => fields.foldlM mergeField value

def mergeMessage {α : Type} (mergeField : α → Field → Option α) (value : α) : Value → Option α
  | .delimited buf => mergeFields mergeField value buf
  | _ => none

def mergeString : Value → Option Bytes
  | .delimited text => if isUtf8 text then some text else none
  | _ => none

def toI32 (value : Nat) : Int32 := Int32.ofInt value

def mergeRepeatedInt32 (values : List Int32) : Value → Option (List Int32)
  | .delimited buf =>
      (readVarints buf).map fun packed => values ++ packed.map toI32
  | .varint value => some (values ++ [toI32 value])
  | _ => none

def JoinMessage.mergeField (_ : Unit) (_ : Field) : Option Unit := some ()

def FileMappings.mergeField (mapping : FileMappings) (field : Field) : Option FileMappings :=
  match field.number with
  | 1 => (mergeString field.value).map fun filename => { mapping with filename := filename }
  | 2 => (mergeRepeatedInt32 mapping.chunkIds field.value).map fun chunkIds =>
      { mapping with chunkIds := chunkIds }
  | _ => some mapping

def HealthMessage.mergeField (fileMappings : List FileMappings) (field : Field) :
    Option (List FileMappings) :=
  match field.number with
  | 1 => (mergeMessage FileMappings.mergeField { filename := [], chunkIds := [] } field.value).map
      fun mapping => fileMappings ++ [mapping]
  | _ => some fileMappings

/-- A second field of the kind the `oneof` holds is merged into what it holds. -/
def MessageFromStorageToMaster.mergeField (msgType : Option MsgType) (field : Field) :
    Option (Option MsgType) :=
  match field.number with
  | 1 => (mergeMessage JoinMessage.mergeField () field.value).map fun _ => some .join
  | 2 =>
      let held := match msgType with
        | some (.health fileMappings) => fileMappings
        | _ => []
      (mergeMessage HealthMessage.mergeField held field.value).map fun fileMappings =>
        some (.health fileMappings)
  | _ => some msgType

/-- `none` is an error, `some none` a message without a `msg_type`. -/
def MessageFromStorageToMaster.decode (buf : Bytes) : Option (Option MsgType) :=
  mergeFields MessageFromStorageToMaster.mergeField none buf

section Merge

variable {α : Type} {mergeField : α → Field → Option α}

@[simp] theorem mergeFields_nil (value : α) : mergeFields mergeField value [] = some value := rfl

theorem mergeFields_delimited {number : Nat} {payload : Bytes} (positive : 0 < number)
    (numbered : number < 2 ^ 29) (bound : payload.length < 2 ^ 64) (value : α) (rest : Bytes) :
    mergeFields mergeField value (delimitedField number payload ++ rest) =
      (mergeField value ⟨number, .delimited payload⟩).bind fun next =>
        mergeFields mergeField next rest := by
  simp only [mergeFields]
  rw [readFields_delimited positive numbered bound, Option.bind_map, Option.bind_comm]
  rfl

theorem mergeFields_of_none {buf : Bytes} (unreadable : readFields buf = none) (value : α) :
    mergeFields mergeField value buf = none := by
  rw [mergeFields, unreadable, Option.bind_none]

end Merge

end DistributedFileSystem.Master
