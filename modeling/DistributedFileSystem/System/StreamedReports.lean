import DistributedFileSystem.Master.ConnectionTasks
import DistributedFileSystem.System.ReportDelivery
import DistributedFileSystem.System.SnapshotView

/-!
Any number of storage nodes and the master, joined by byte streams: the registry holds for
each node the table of the last report that came in whole and that the master can decode.
-/

namespace DistributedFileSystem.System

open ByteString Framing Master StorageLayer Transition

def readable (table : StorageStateOuter) : Bool :=
  table.fileToChunkState.all fun file => isUtf8 file.filePath

/-- A storage node at its socket: the tables that it reports, one after the other, and what its
calls of `send` answer. -/
structure Sender where
  tables : List StorageStateOuter
  results : List SendResult

namespace Sender

def payloads (sender : Sender) : List Bytes :=
  joinMessage :: sender.tables.map returnCurrentStateEncodedInProtobufs

def wire (sender : Sender) : Bytes := (sendMessages ⟨[], sender.results⟩ sender.payloads).2.wire

/-- The table of the last report among the first `count` messages whose names are all text;
the master drops the others. -/
def reported (sender : Sender) (count : Nat) : Option StorageStateOuter :=
  ((sender.tables.take (count - 1)).filter readable).getLast?

def entry (sender : Sender) (connectionId : ConnectionId) (ip : IpAddr) (count : Nat) :
    List ConnectionData :=
  if count = 0 then []
  else [⟨connectionId, ip, ((sender.reported count).map mappings).getD []⟩]

end Sender

theorem frameInput_report {table : StorageStateOuter}
    (short : (returnCurrentStateEncodedInProtobufs table).length < 2 ^ 32) :
    frameInput (returnCurrentStateEncodedInProtobufs table) =
      if readable table then healthInput (mappings table) else .frame none := by
  have packed : returnCurrentStateEncodedInProtobufs table =
      StorageLayer.MessageFromStorageToMaster.pack (.health (mappings table)) :=
    returnCurrentStateEncodedInProtobufs_eq table
  have names : (∀ mapping ∈ mappings table, isUtf8 mapping.filename) ↔ readable table := by
    rw [mappings, List.forall_mem_map, readable, List.all_eq_true]
    rfl
  rw [packed] at short ⊢
  rw [frameInput, decode_health (by omega)]
  by_cases text : readable table = true
  · rw [if_pos (names.mpr text), if_pos text]
    rfl
  · rw [if_neg (mt names.mp text), if_neg text]

theorem ownEntries_reports (connectionId : ConnectionId) (ip : IpAddr)
    {tables : List StorageStateOuter}
    (short : ∀ table ∈ tables, (returnCurrentStateEncodedInProtobufs table).length < 2 ^ 32) :
    ownEntries connectionId ip (joinInput :: tables.map fun table =>
        frameInput (returnCurrentStateEncodedInProtobufs table)) =
      [⟨connectionId, ip, ((tables.filter readable).getLast?.map mappings).getD []⟩] := by
  induction tables using List.reverseRecOn with
  | nil => rfl
  | append_singleton tables table ih =>
      rw [List.forall_mem_append, List.forall_mem_singleton] at short
      rw [List.map_append, ← List.cons_append, List.map_singleton, ownEntries,
        List.foldl_concat, ← ownEntries, ih short.1, frameInput_report short.2]
      by_cases text : readable table = true
      · simp [advance, healthInput, ConnectionData.updateState, List.filter_append, text]
      · simp [advance, List.filter_append, text]

theorem ownEntries_closed (connectionId : ConnectionId) (ip : IpAddr) (received : List Input) :
    ownEntries connectionId ip (received ++ [.closed]) = [] := by
  rw [ownEntries, List.foldl_concat]
  rfl

namespace Sender

variable {sender : Sender}

theorem ownEntries_take (short : ∀ payload ∈ sender.payloads, payload.length < 2 ^ 32)
    (connectionId : ConnectionId) (ip : IpAddr) (count : Nat) :
    ownEntries connectionId ip ((sender.payloads.take count).map frameInput) =
      sender.entry connectionId ip count := by
  cases count with
  | zero => rfl
  | succ count =>
      have joins : frameInput joinMessage = joinInput := by rw [frameInput, decode_join]; rfl
      have reports := @ownEntries_reports connectionId ip (sender.tables.take count)
        fun table member => short _ (List.mem_cons_of_mem _ (List.mem_map_of_mem
          (List.mem_of_mem_take member)))
      rw [payloads, List.take_succ_cons, List.map_cons, joins, ← List.map_take, List.map_map,
        Function.comp_def, reports, entry, if_neg (Nat.succ_ne_zero count), reported,
        Nat.add_sub_cancel]

theorem wire_frames (short : ∀ payload ∈ sender.payloads, payload.length < 2 ^ 32) :
    sender.wire <+: frames sender.payloads := by
  obtain ⟨part, front, same⟩ := (receiveMessages_advanced short ⟨[], sender.results⟩).part
  rw [wire, sendMessages_eq, same, List.nil_append]
  exact front

theorem exists_mem_entry (sender : Sender) (connectionId : ConnectionId) (own ip : IpAddr)
    (count : Nat) (fileName : Bytes) (chunkId : Int32) :
    (∃ connection ∈ sender.entry connectionId own count, connection.ip = ip ∧
      ∃ mapping ∈ connection.filesToChunks,
        mapping.filename = fileName ∧ chunkId ∈ mapping.chunkIds) ↔
    own = ip ∧ ∃ table, sender.reported count = some table ∧
      ∃ file ∈ table.fileToChunkState, file.filePath = fileName ∧ chunkId ∈ file.chunkIds := by
  rw [entry]
  split
  · rename_i none
    simp [none, reported]
  · cases found : sender.reported count with
    | none => simp
    | some table => simp [mappings, mappingOf]

/-- The messages that a task has handed on from this stream. -/
theorem bufs_of_stream (short : ∀ payload ∈ sender.payloads, payload.length < 2 ^ 32)
    {own : List Activity} {task : ConnectionTask} {bufs : List Bytes}
    (hasRead : HasRead own task bufs) (sent : delivered own <+: sender.wire) :
    ∃ count ≤ sender.payloads.length, bufs = sender.payloads.take count ∧
      (frames (sender.payloads.take count)).length ≤ (delivered own).length ∧
      (task.Idle → .fails ∉ own → ∀ index ≤ sender.payloads.length,
        index ≤ count ↔ (frames (sender.payloads.take index)).length ≤ (delivered own).length) := by
  obtain ⟨whole, reads, counts⟩ := readLoop_prefix short (sent.trans (wire_frames short))
  have part := hasRead.part
  rw [reads] at part
  have handed := (part.trans (List.take_prefix _ _))
  have least : bufs.length ≤ whole := by
    have shorter := part.length_le
    rw [List.length_take] at shorter
    omega
  have same : bufs = sender.payloads.take bufs.length := List.prefix_iff_eq_take.mp handed
  refine ⟨bufs.length, handed.length_le, same, (counts _ handed.length_le).mp least, ?_⟩
  intro idle calm index bound
  obtain ⟨all, _⟩ := hasRead.of_idle idle calm
  rw [← counts index bound, all, reads, List.length_take]
  omega

end Sender

theorem exists_mem_connections (storage : TcpStorage) (holds : ConnectionData → Prop) :
    (∃ connection ∈ storage.connections, holds connection) ↔
      ∃ connectionId, ∃ connection ∈ entries connectionId storage, holds connection := by
  constructor
  · rintro ⟨connection, member, held⟩
    exact ⟨connection.connectionId, connection, List.mem_filter.mpr ⟨member, by simp⟩, held⟩
  · rintro ⟨_, connection, member, held⟩
    exact ⟨connection, (List.mem_filter.mp member).1, held⟩

/-- Whatever the pieces in which the streams of any number of nodes arrive, and the order in
which the tasks go on: of the messages that have arrived in whole the task of each node has
handled `count`, and has yet to read the others, of which none is left when it has nothing to
do; for each node whose task has not ended the registry holds the table of the last report
among the `count` that can be decoded, and a chunk is located at the nodes whose such table
has it. -/
theorem last_whole_report (address : ConnectionId → IpAddr) (replicationFactor : Int)
    (senders : ConnectionId → Sender)
    (short : ∀ connectionId, ∀ payload ∈ (senders connectionId).payloads, payload.length < 2 ^ 32)
    (turns : List Master.Turn)
    (sent : ∀ connectionId,
      delivered (activities connectionId turns) <+: (senders connectionId).wire) :
    ∃ trace final, ∃ count : ConnectionId → Nat,
      run (turn address) (Listener.start replicationFactor) turns = some (trace, final) ∧
      (∀ connectionId,
        count connectionId ≤ (senders connectionId).payloads.length ∧
        (frames ((senders connectionId).payloads.take (count connectionId))).length ≤
          (delivered (activities connectionId turns)).length ∧
        ((final.tasks connectionId).reading ≠ .ended →
          readLoop (delivered (activities connectionId turns)) =
            (senders connectionId).payloads.take (count connectionId) ++
              remaining (final.tasks connectionId).reading (final.tasks connectionId).unread) ∧
        entries connectionId final.handler.tcpStorage =
          (if (final.tasks connectionId).reading = .ended then []
          else (senders connectionId).entry connectionId (address connectionId)
            (count connectionId)) ∧
        ((final.tasks connectionId).Idle → .fails ∉ activities connectionId turns →
          ∀ index ≤ (senders connectionId).payloads.length,
            index ≤ count connectionId ↔
              (frames ((senders connectionId).payloads.take index)).length ≤
                (delivered (activities connectionId turns)).length)) ∧
      ∀ fileName chunkId ip,
        ip ∈ final.handler.tcpStorage.getLocation fileName chunkId ↔
          ∃ connectionId, address connectionId = ip ∧
            (final.tasks connectionId).reading ≠ .ended ∧
            ∃ table, (senders connectionId).reported (count connectionId) = some table ∧
              ∃ file ∈ table.fileToChunkState,
                file.filePath = fileName ∧ chunkId ∈ file.chunkIds := by
  obtain ⟨trace, final, ran, same, tracked⟩ := run_tracked address replicationFactor turns
  have streams : ∀ connectionId, ∃ count,
      count ≤ (senders connectionId).payloads.length ∧
      (frames ((senders connectionId).payloads.take count)).length ≤
        (delivered (activities connectionId turns)).length ∧
      ((final.tasks connectionId).reading ≠ .ended →
        readLoop (delivered (activities connectionId turns)) =
          (senders connectionId).payloads.take count ++
            remaining (final.tasks connectionId).reading (final.tasks connectionId).unread) ∧
      entries connectionId final.handler.tcpStorage =
        (if (final.tasks connectionId).reading = .ended then []
        else (senders connectionId).entry connectionId (address connectionId) count) ∧
      ((final.tasks connectionId).Idle → .fails ∉ activities connectionId turns →
        ∀ index ≤ (senders connectionId).payloads.length,
          index ≤ count ↔ (frames ((senders connectionId).payloads.take index)).length ≤
            (delivered (activities connectionId turns)).length) := by
    intro connectionId
    obtain ⟨bufs, hasRead, received⟩ := tracked.streams connectionId
    rw [same] at hasRead
    obtain ⟨count, bound, rfl, arrived, last⟩ :=
      Sender.bufs_of_stream (short connectionId) hasRead (sent connectionId)
    refine ⟨count, bound, arrived, hasRead.left, ?_, last⟩
    rw [tracked.entries received, closing]
    split
    · exact ownEntries_closed _ _ _
    · rw [List.append_nil]
      exact Sender.ownEntries_take (short connectionId) connectionId (address connectionId) count
  choose count bound arrived left entered last using streams
  refine ⟨trace, final, count, ran, fun connectionId => ⟨bound connectionId,
    arrived connectionId, left connectionId, entered connectionId, last connectionId⟩, ?_⟩
  intro fileName chunkId ip
  rw [mem_getLocation, exists_mem_connections]
  refine exists_congr fun connectionId => ?_
  rw [entered connectionId]
  split
  · rename_i ended
    simp [ended]
  · rename_i ongoing
    rw [Sender.exists_mem_entry]
    exact and_congr_right fun _ => (and_iff_right ongoing).symm

def oneReport : Sender where
  tables := [⟨[⟨ascii "a", [0]⟩]⟩]
  results := List.replicate 40 (.took 9)

def inPieces : List Master.Turn := [
  ⟨"n", .delivers (oneReport.wire.take 7)⟩,
  ⟨"m", .delivers (oneReport.wire.take 5)⟩,
  ⟨"n", .reads⟩, ⟨"m", .reads⟩, ⟨"n", .reads⟩,
  ⟨"n", .delivers (oneReport.wire.drop 7)⟩,
  ⟨"n", .reads⟩, ⟨"m", .reads⟩, ⟨"n", .reads⟩]

theorem inPieces_sent (connectionId : ConnectionId) :
    delivered (activities connectionId inPieces) <+: oneReport.wire := by
  by_cases first : connectionId = "n"
  · subst first
    decide +kernel
  · by_cases second : connectionId = "m"
    · subst second
      decide +kernel
    · have none : activities connectionId inPieces = [] := by
        simp [activities, ofParty, inPieces, Ne.symm first, Ne.symm second]
      rw [none]
      exact List.nil_prefix

theorem last_whole_report_inPieces : ∃ trace final, ∃ count : ConnectionId → Nat,
    run (turn fun _ => .v4 1) (Listener.start 1) inPieces = some (trace, final) ∧
    ((final.tasks "n").Idle → .fails ∉ activities "n" inPieces →
      ∀ index ≤ 2, index ≤ count "n" ↔
        (frames (oneReport.payloads.take index)).length ≤
          (delivered (activities "n" inPieces)).length) := by
  obtain ⟨trace, final, count, ran, streams, _⟩ := last_whole_report (fun _ => .v4 1) 1
    (fun _ => oneReport) (fun _ => by decide +kernel) inPieces inPieces_sent
  exact ⟨trace, final, count, ran, (streams "n").2.2.2.2⟩

end DistributedFileSystem.System
