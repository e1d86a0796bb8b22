import DistributedFileSystem.Master.DataDecode
import DistributedFileSystem.Master.ReadLoop
import DistributedFileSystem.StorageLayer.DataPack
import DistributedFileSystem.StorageLayer.HttpRun
import DistributedFileSystem.StorageLayer.TcpClient

/-! A report of a storage node, from its table to the message the master decodes. -/

namespace DistributedFileSystem.System

open ByteString Framing WireFormat Posix Transition Master StorageLayer

def firstMessage (wire : Bytes) : Option (Option MsgType) :=
  (readLoop wire).head?.bind MessageFromStorageToMaster.decode

theorem length_lt_delimitedField (number : Nat) (payload : Bytes) :
    payload.length < (delimitedField number payload).length := by
  have header := List.length_pos_iff.mpr (varint_ne_nil payload.length)
  rw [delimitedField, List.length_append, List.length_append]
  omega

theorem mergeFields_packUnlessEmpty {α : Type} {mergeField : α → Field → Option α} {number : Nat}
    {payload : Bytes} (positive : 0 < number) (numbered : number < 2 ^ 29)
    (bound : (packUnlessEmpty number payload).length < 2 ^ 64) (value : α)
    (unchanged : payload = [] → mergeField value ⟨number, .delimited payload⟩ = some value)
    (rest : Bytes) :
    mergeFields mergeField value (packUnlessEmpty number payload ++ rest) =
      (mergeField value ⟨number, .delimited payload⟩).bind fun next =>
        mergeFields mergeField next rest := by
  by_cases empty : payload = []
  · rw [unchanged empty, packUnlessEmpty, if_pos empty]
    rfl
  · rw [packUnlessEmpty, if_neg empty] at bound ⊢
    have shorter := length_lt_delimitedField number payload
    exact mergeFields_delimited positive numbered (by omega) value rest

theorem mergeFields_mapping {mapping : FileMappings}
    (bound : (StorageLayer.FileMappings.pack mapping).length < 2 ^ 64) :
    mergeFields FileMappings.mergeField { filename := [], chunkIds := [] }
        (FileMappings.pack mapping) =
      if isUtf8 mapping.filename then some mapping else none := by
  have ids : readVarints (mapping.chunkIds.flatMap fun chunkId => varint (int32Value chunkId)) =
      some (mapping.chunkIds.map int32Value) := by
    rw [← List.flatMap_map]
    apply readVarints_flatMap
    intro value member
    obtain ⟨chunkId, _, rfl⟩ := List.mem_map.mp member
    exact int32Value_lt chunkId
  have back : (mapping.chunkIds.map int32Value).map toI32 = mapping.chunkIds := by
    rw [List.map_map]
    simp [Function.comp_def, toI32, ofInt_int32Value]
  rw [FileMappings.pack, List.length_append] at bound
  rw [FileMappings.pack, mergeFields_packUnlessEmpty (by omega) (by omega) (by omega)]
  · simp only [FileMappings.mergeField, mergeString]
    split
    · rw [Option.map_some, Option.bind_some, ← List.append_nil (packUnlessEmpty 2 _),
        mergeFields_packUnlessEmpty (by omega) (by omega) (by omega)]
      · simp only [FileMappings.mergeField, mergeRepeatedInt32, ids, Option.map_some, back,
          List.nil_append, Option.bind_some, mergeFields_nil]
      · intro empty
        simp [FileMappings.mergeField, mergeRepeatedInt32, empty, readVarints]
    · rfl
  · intro empty
    have utf8 : isUtf8 [] = true := by decide +kernel
    simp [FileMappings.mergeField, mergeString, empty, utf8]

theorem mergeFields_health {fileMappings : List FileMappings}
    (bound : (HealthMessage.pack fileMappings).length < 2 ^ 64) (held : List FileMappings) :
    mergeFields HealthMessage.mergeField held (HealthMessage.pack fileMappings) =
      if ∀ mapping ∈ fileMappings, isUtf8 mapping.filename then some (held ++ fileMappings)
      else none := by
  induction fileMappings generalizing held with
  | nil => simp [HealthMessage.pack]
  | cons mapping rest ih =>
      rw [HealthMessage.pack, List.flatMap_cons, List.length_append] at bound
      have shorter := length_lt_delimitedField 1 (FileMappings.pack mapping)
      have later := fun held => @ih (by rw [HealthMessage.pack]; omega) held
      rw [HealthMessage.pack, List.flatMap_cons,
        mergeFields_delimited (by omega) (by omega) (by omega)]
      have own := mergeFields_mapping (by omega : (FileMappings.pack mapping).length < 2 ^ 64)
      simp only [HealthMessage.mergeField, mergeMessage, own]
      by_cases utf8 : isUtf8 mapping.filename = true
      · rw [if_pos utf8, Option.map_some, Option.bind_some]
        rw [HealthMessage.pack] at later
        simp only [later, List.forall_mem_cons, utf8, true_and, List.append_assoc,
          List.singleton_append]
      · rw [if_neg utf8, if_neg]
        · rfl
        · exact fun all => utf8 (all mapping (by simp))

theorem decode_health {fileMappings : List FileMappings}
    (bound : (StorageLayer.MessageFromStorageToMaster.pack (.health fileMappings)).length < 2 ^ 64) :
    MessageFromStorageToMaster.decode (MessageFromStorageToMaster.pack (.health fileMappings)) =
      if ∀ mapping ∈ fileMappings, isUtf8 mapping.filename then
        some (some (.health fileMappings))
      else none := by
  rw [MessageFromStorageToMaster.pack] at bound ⊢
  have shorter := length_lt_delimitedField 2 (HealthMessage.pack fileMappings)
  rw [MessageFromStorageToMaster.decode, ← List.append_nil (delimitedField 2 _),
    mergeFields_delimited (by omega) (by omega) (by omega)]
  simp only [MessageFromStorageToMaster.mergeField, mergeMessage,
    mergeFields_health (by omega : (HealthMessage.pack fileMappings).length < 2 ^ 64)]
  split
  · rfl
  · rfl

theorem decode_join : MessageFromStorageToMaster.decode joinMessage = some (some .join) := by
  rw [joinMessage, MessageFromStorageToMaster.pack, MessageFromStorageToMaster.decode,
    ← List.append_nil (delimitedField 1 []), mergeFields_delimited (by omega) (by omega) (by simp)]
  rfl

theorem decode_cut {fileMappings : List FileMappings} {buf : Bytes}
    (cut : buf <+: StorageLayer.MessageFromStorageToMaster.pack (.health fileMappings))
    (short : buf.length < (StorageLayer.MessageFromStorageToMaster.pack (.health fileMappings)).length)
    (msgType : MsgType) : Master.MessageFromStorageToMaster.decode buf ≠ some (some msgType) := by
  by_cases empty : buf = []
  · subst buf
    rw [MessageFromStorageToMaster.decode, mergeFields_nil]
    simp
  · have missing : readField buf = none := readField_cut cut short
    rw [MessageFromStorageToMaster.decode, mergeFields_of_none (readAll_of_none empty missing)]
    simp

/-- The length of a frame has 32 bits: a longer message is cut and not decoded. -/
theorem firstMessage_of_long {fileMappings : List FileMappings} {message : Bytes}
    (packed : message = StorageLayer.MessageFromStorageToMaster.pack (.health fileMappings))
    (long : 2 ^ 32 ≤ message.length) (msgType : MsgType) :
    firstMessage (networkOrder (message.length % 2 ^ 32) ++ message) ≠ some (some msgType) := by
  have less : message.length % 2 ^ 32 < 2 ^ 32 := Nat.mod_lt _ (by omega)
  have framed : readFrame (networkOrder (message.length % 2 ^ 32) ++ message) =
      some (message.take (message.length % 2 ^ 32), message.drop (message.length % 2 ^ 32)) := by
    rw [readFrame, readU32_networkOrder less]
    simp only [readExact]
    rw [if_pos (by omega)]
  rw [firstMessage, readLoop_of_frame framed, List.head?_cons, Option.bind_some]
  rw [packed] at long ⊢
  apply decode_cut (List.take_prefix _ _)
  rw [List.length_take]
  omega

theorem firstMessage_of_short {fileMappings : List FileMappings} {message : Bytes}
    (packed : message = StorageLayer.MessageFromStorageToMaster.pack (.health fileMappings))
    (short : message.length < 2 ^ 32) :
    firstMessage (networkOrder (message.length % 2 ^ 32) ++ message) =
      if ∀ mapping ∈ fileMappings, isUtf8 mapping.filename then
        some (some (.health fileMappings))
      else none := by
  have framed := readFrame_frame short []
  rw [frame, List.append_nil] at framed
  rw [Nat.mod_eq_of_lt short, firstMessage, readLoop_of_frame framed, List.head?_cons,
    Option.bind_some, packed]
  rw [packed] at short
  exact decode_health (by omega)

theorem report_delivered_iff (state : StorageStateOuter) {results : List SendResult}
    (sent : (sendMessage ⟨[], results⟩ (returnCurrentStateEncodedInProtobufs state)).1 = .sent) :
    firstMessage (sendMessage ⟨[], results⟩ (returnCurrentStateEncodedInProtobufs state)).2.wire =
        some (some (.health (state.fileToChunkState.map mappingOf))) ↔
      (∀ file ∈ state.fileToChunkState, isUtf8 file.filePath) ∧
        (returnCurrentStateEncodedInProtobufs state).length < 2 ^ 32 := by
  have packed : returnCurrentStateEncodedInProtobufs state =
      StorageLayer.MessageFromStorageToMaster.pack
        (.health (state.fileToChunkState.map mappingOf)) :=
    returnCurrentStateEncodedInProtobufs_eq state
  rw [(sendMessage_wire ⟨[], results⟩ _).whole sent, List.nil_append]
  by_cases short : (returnCurrentStateEncodedInProtobufs state).length < 2 ^ 32
  · rw [firstMessage_of_short packed short]
    simp only [List.forall_mem_map, mappingOf, short, and_true]
    constructor
    · intro same
      by_contra failed
      rw [if_neg failed] at same
      exact Option.some_ne_none _ same.symm
    · intro utf8
      rw [if_pos utf8]
  · exact iff_of_false (firstMessage_of_long packed (by omega) _) fun both => short both.2

/-- The report of any table the node can come to: it is accepted as it stands if all
its names are UTF-8, as they are when all names in the requests were, and the message
is short enough for its frame; and in no other case. -/
theorem health_report_accepted_iff {storage final : Storage} {callbacks : List Callback}
    {trace : List (Callback × (Answer × Option ConnectionInfo))} {results : List SendResult}
    (fresh : storage.table = storageStateInit)
    (ran : run callBack storage callbacks = some (trace, final))
    (sent : (sendMessage ⟨[], results⟩
      (returnCurrentStateEncodedInProtobufs final.table)).1 = .sent) :
    (firstMessage
          (sendMessage ⟨[], results⟩ (returnCurrentStateEncodedInProtobufs final.table)).2.wire =
        some (some (.health (final.table.fileToChunkState.map mappingOf))) ↔
      (∀ file ∈ final.table.fileToChunkState, isUtf8 file.filePath) ∧
        (returnCurrentStateEncodedInProtobufs final.table).length < 2 ^ 32) ∧
    ((∀ callback ∈ callbacks, ∀ filename,
        callback.request.header (ascii "X-Filename") = some filename → isUtf8 filename) →
      ∀ file ∈ final.table.fileToChunkState, isUtf8 file.filePath) := by
  refine ⟨report_delivered_iff final.table sent, ?_⟩
  intro utf8 file member
  obtain ⟨callback, belongs, named⟩ := run_names fresh ran file member
  exact utf8 callback belongs file.filePath named

theorem health_report_accepted_iff_negativeId :
    firstMessage (sendMessage ⟨[], [.took 4, .took 99]⟩
        (returnCurrentStateEncodedInProtobufs ⟨[⟨ascii "a", [-1]⟩]⟩)).2.wire =
      some (some (.health [⟨ascii "a", [-1]⟩])) := by
  have saved : ((run callBack emptyStorage
      (uploadCallbacks (ascii "a") (ascii "-1") (ascii "x") fun _ => [])).map
        fun ended => ended.2.table) = some ⟨[⟨ascii "a", [-1]⟩]⟩ := by decide +kernel
  obtain ⟨⟨trace, final⟩, ran, same⟩ := Option.map_eq_some_iff.mp saved
  simp only at same
  have accepted := (@health_report_accepted_iff emptyStorage final _ trace [.took 4, .took 99]
    rfl ran (by rw [same]; decide +kernel)).1.mpr (by rw [same]; decide +kernel)
  rw [same] at accepted
  exact accepted

theorem latinName_rejected : ¬∀ (storage final : Storage) (callbacks : List Callback)
    (trace : List (Callback × (Answer × Option ConnectionInfo))), storage.Fresh →
    run callBack storage callbacks = some (trace, final) →
    MessageFromStorageToMaster.decode (returnCurrentStateEncodedInProtobufs final.table) =
      some (some (.health (final.table.fileToChunkState.map mappingOf))) := by
  intro always
  have saved : ((run callBack emptyStorage
      (uploadCallbacks [233] (ascii "0") (ascii "x") fun _ => [])).map
        fun ended => ended.2.table) = some ⟨[⟨[233], [0]⟩]⟩ := by decide +kernel
  obtain ⟨⟨trace, final⟩, ran, same⟩ := Option.map_eq_some_iff.mp saved
  simp only at same
  have accepted := always emptyStorage final _ trace emptyStorage_fresh ran
  rw [same] at accepted
  have rejected : MessageFromStorageToMaster.decode
      (returnCurrentStateEncodedInProtobufs ⟨[⟨[233], [0]⟩]⟩) = none := by decide +kernel
  rw [rejected] at accepted
  exact Option.some_ne_none _ accepted.symm

end DistributedFileSystem.System
