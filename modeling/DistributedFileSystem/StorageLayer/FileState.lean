import DistributedFileSystem.Library.Posix.Process
import DistributedFileSystem.Protos

/-!
The chunk table of a storage node (`state/fileState.c`). The counts
`num_file_count` and `num_chunks` are the lengths of the lists.
-/

namespace DistributedFileSystem.StorageLayer

open ByteString

structure FileStateCurrentInner where
  filePath : Bytes
  chunkIds : List Int32
  deriving DecidableEq, Repr

structure StorageStateOuter where
  fileToChunkState : List FileStateCurrentInner
  deriving DecidableEq, Repr

def storageStateInit : StorageStateOuter := { fileToChunkState := [] }

def pushChunkId (allocated : Bool) (fileState : FileStateCurrentInner) (chunkId : Int32) :
    FileStateCurrentInner :=
  if allocated then { fileState with chunkIds := fileState.chunkIds ++ [chunkId] } else fileState

/-- `none` when the slot `num_file_count - 1` does not exist. The `realloc` of
`push_chunk_id` may fail; the unchecked allocations of the table may not. -/
def insertToStruct (allocated : Bool) (state : StorageStateOuter) (filePath : Bytes)
    (chunkId : Int32) (directoryHasFile : Bool) : Option StorageStateOuter :=
  let table := if !directoryHasFile then
      state.fileToChunkState ++ [{ filePath := filePath, chunkIds := [] }]
    else state.fileToChunkState
  match table.getLast? with
  | none => none
  | some currentFile =>
      some { fileToChunkState := table.dropLast ++ [pushChunkId allocated currentFile chunkId] }

def shiftDown (table : List FileStateCurrentInner) : Nat → Nat → List FileStateCurrentInner
  | 0, _ => table
  | count + 1, i =>
      match table[i + 1]? with
      | some next => shiftDown (table.set i next) count (i + 1)
      | none => table

def removeFromStruct (state : StorageStateOuter) (filePath : Bytes) : StorageStateOuter :=
  match state.fileToChunkState.findIdx? (fun file => file.filePath = filePath) with
  | none => state
  | some index =>
      let count := state.fileToChunkState.length - 1
      { fileToChunkState := (shiftDown state.fileToChunkState (count - index) index).take count }

def copyMappings (table : List FileStateCurrentInner) (mappings : List FileMappings) :
    Nat → Nat → List FileMappings
  | 0, _ => mappings
  | count + 1, i =>
      match table[i]? with
      | some file =>
          copyMappings table
            (mappings ++ [{ filename := file.filePath, chunkIds := file.chunkIds }]) count (i + 1)
      | none => mappings

/-- The content of the message that `return_current_state_encoded_in_protobufs` packs. -/
def returnCurrentState (state : StorageStateOuter) : MsgType :=
  .health (copyMappings state.fileToChunkState [] state.fileToChunkState.length 0)

def fileText (i : Nat) (file : FileStateCurrentInner) : Bytes :=
  ascii "\nFile " ++ digits (i + 1) ++ ascii ":\n  Path: " ++ file.filePath ++
    ascii "\n  Total chunks: " ++ digits file.chunkIds.length ++ ascii "\n  Chunk IDs: " ++
    file.chunkIds.flatMap (fun chunkId => decimal chunkId ++ ascii " ") ++ ascii "\n"

def printStorageState (state : StorageStateOuter) : Bytes :=
  ascii "\n=== Storage State ===\nTotal files: " ++ digits state.fileToChunkState.length ++
    ascii "\n" ++ (state.fileToChunkState.mapIdx fileText).flatten ++
    ascii "===================\n\n"

def mappingOf (file : FileStateCurrentInner) : FileMappings :=
  { filename := file.filePath, chunkIds := file.chunkIds }

theorem insertToStruct_new (allocated : Bool) (state : StorageStateOuter) (filePath : Bytes)
    (chunkId : Int32) :
    insertToStruct allocated state filePath chunkId false =
      some { fileToChunkState := state.fileToChunkState ++
        [pushChunkId allocated { filePath := filePath, chunkIds := [] } chunkId] } := by
  simp [insertToStruct]

theorem insertToStruct_last (allocated : Bool) (table : List FileStateCurrentInner)
    (last : FileStateCurrentInner) (filePath : Bytes) (chunkId : Int32) :
    insertToStruct allocated { fileToChunkState := table ++ [last] } filePath chunkId true =
      some { fileToChunkState := table ++ [pushChunkId allocated last chunkId] } := by
  simp [insertToStruct]

theorem insertToStruct_eq_none (allocated : Bool) (state : StorageStateOuter) (filePath : Bytes)
    (chunkId : Int32) (directoryHasFile : Bool) :
    insertToStruct allocated state filePath chunkId directoryHasFile = none ↔
      directoryHasFile = true ∧ state.fileToChunkState = [] := by
  cases directoryHasFile with
  | false => simp [insertToStruct_new]
  | true =>
      rcases List.eq_nil_or_concat state.fileToChunkState with empty | ⟨table, last, same⟩
      · simp [insertToStruct, empty]
      · obtain ⟨_⟩ := state
        simp only at same
        subst same
        simp [insertToStruct_last]

theorem insertToStruct_some {allocated has : Bool} {state next : StorageStateOuter}
    {filePath : Bytes} {chunkId : Int32}
    (inserted : insertToStruct allocated state filePath chunkId has = some next) :
    ∃ front entry, next.fileToChunkState = front ++ [pushChunkId allocated entry chunkId] ∧
      (has = false ∧ front = state.fileToChunkState ∧
          entry = { filePath := filePath, chunkIds := [] } ∨
        has = true ∧ state.fileToChunkState = front ++ [entry]) := by
  cases has with
  | false =>
      rw [insertToStruct_new, Option.some.injEq] at inserted
      exact ⟨state.fileToChunkState, _, by rw [← inserted], Or.inl ⟨rfl, rfl, rfl⟩⟩
  | true =>
      obtain ⟨table⟩ := state
      rcases List.eq_nil_or_concat' table with rfl | ⟨front, entry, rfl⟩
      · simp [insertToStruct] at inserted
      · rw [insertToStruct_last, Option.some.injEq] at inserted
        exact ⟨front, entry, by rw [← inserted], Or.inr ⟨rfl, rfl⟩⟩

theorem insertToStruct_filePath {allocated has : Bool} {state next : StorageStateOuter}
    {filePath : Bytes} {chunkId : Int32}
    (inserted : insertToStruct allocated state filePath chunkId has = some next) :
    next.fileToChunkState.map FileStateCurrentInner.filePath =
      state.fileToChunkState.map FileStateCurrentInner.filePath ++
        if has then [] else [filePath] := by
  have pushed : ∀ entry, (pushChunkId allocated entry chunkId).filePath = entry.filePath := by
    intro entry
    unfold pushChunkId
    split <;> rfl
  obtain ⟨front, entry, extended, source⟩ := insertToStruct_some inserted
  rcases source with ⟨rfl, rfl, rfl⟩ | ⟨rfl, split⟩
  · simp [extended, pushed]
  · simp [extended, pushed, split]

theorem shiftDown_eq (before after : List FileStateCurrentInner) (hole : FileStateCurrentInner) :
    ∃ last, shiftDown (before ++ hole :: after) after.length before.length =
      before ++ after ++ [last] := by
  induction after generalizing before hole with
  | nil => exact ⟨hole, by simp [shiftDown]⟩
  | cons next rest ih =>
      obtain ⟨last, shifted⟩ := ih (before ++ [next]) next
      refine ⟨last, ?_⟩
      have found : (before ++ hole :: next :: rest)[before.length + 1]? = some next := by simp
      simp only [List.length_cons, shiftDown, found]
      simpa using shifted

theorem shiftDown_take (table : List FileStateCurrentInner) {index : Nat}
    (bound : index < table.length) :
    (shiftDown table (table.length - 1 - index) index).take (table.length - 1) =
      table.eraseIdx index := by
  have split : table = table.take index ++ table[index] :: table.drop (index + 1) := by simp
  have before : (table.take index).length = index := by simp; omega
  have after : (table.drop (index + 1)).length = table.length - 1 - index := by simp; omega
  obtain ⟨last, shifted⟩ := shiftDown_eq (table.take index) (table.drop (index + 1)) table[index]
  rw [← split, before, after] at shifted
  rw [shifted, List.eraseIdx_eq_take_drop_succ]
  apply List.take_left'
  rw [List.length_append, before, after]
  omega

/-- The in-place shift takes out the first entry of that name and nothing else. -/
theorem removeFromStruct_eq (state : StorageStateOuter) (filePath : Bytes) :
    (removeFromStruct state filePath).fileToChunkState =
      state.fileToChunkState.eraseP fun file => file.filePath = filePath := by
  rw [List.eraseP_eq_eraseIdx]
  unfold removeFromStruct
  split
  · rename_i missing
    simp [missing]
  · rename_i index found
    have bound := (List.findIdx?_eq_some_iff_getElem.mp found).1
    simp only [found]
    exact shiftDown_take state.fileToChunkState bound

theorem copyMappings_eq (before after : List FileStateCurrentInner) :
    copyMappings (before ++ after) (before.map mappingOf) after.length before.length =
      (before ++ after).map mappingOf := by
  induction after generalizing before with
  | nil => simp [copyMappings]
  | cons file rest ih =>
      have found : (before ++ file :: rest)[before.length]? = some file := by simp
      have tail := ih (before ++ [file])
      rw [List.append_assoc, List.singleton_append, List.length_append, List.map_append] at tail
      rw [List.length_cons, copyMappings, found]
      exact tail

theorem returnCurrentState_eq (state : StorageStateOuter) :
    returnCurrentState state = .health (state.fileToChunkState.map mappingOf) := by
  rw [returnCurrentState]
  congr 1
  exact copyMappings_eq [] state.fileToChunkState

end DistributedFileSystem.StorageLayer
