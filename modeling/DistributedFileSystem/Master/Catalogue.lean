import DistributedFileSystem.Master.ConnectionEntries
import DistributedFileSystem.Master.FileLocations

/-!
The four queries about a file (`get_file_list`, `get_file_locations`,
`get_chunks_for_file` and `get_location`) against the reports of the connections.
-/

namespace DistributedFileSystem.Master

open ByteString FirstOccurrences TcpStorage

theorem mem_getFileList_iff_reports {storage : TcpStorage} {fileName : Bytes} :
    fileName ∈ storage.getFileList ↔
      ∃ connection ∈ storage.connections, Reports fileName connection :=
  mem_getFileList

theorem mem_reporters {storage : TcpStorage} {fileName : Bytes} {connection : ConnectionData} :
    connection ∈ reporters storage fileName ↔
      connection ∈ storage.connections ∧ Reports fileName connection := by
  rw [reporters, List.mem_filter, decide_eq_true_eq]

/-- The walk ends early only after it has shown an address. -/
theorem getFileLocations_ne_nil {storage : TcpStorage} {fileName : Bytes} :
    storage.getFileLocations fileName ≠ [] ↔
      ∃ connection ∈ storage.connections, Reports fileName connection := by
  rw [getFileLocations_eq, foldl_showUntil _ _ _ List.not_mem_nil]
  constructor
  · intro shown
    obtain ⟨connection, member⟩ : ∃ connection, connection ∈ reporters storage fileName := by
      apply List.exists_mem_of_ne_nil
      intro empty
      simp [empty] at shown
    exact ⟨connection, mem_reporters.mp member⟩
  · rintro ⟨connection, reported⟩
    obtain ⟨first, rest, split⟩ :=
      List.exists_cons_of_ne_nil (List.ne_nil_of_mem (mem_reporters.mpr reported))
    rw [split]
    by_cases same : first.ip.toString = fileName
    · simp [same]
    · simp [same]

theorem reports_of_chunk {storage : TcpStorage} {fileName : Bytes} {chunkId : Int32}
    (listed : chunkId ∈ storage.getChunksForFile fileName) :
    ∃ connection ∈ storage.connections, Reports fileName connection := by
  obtain ⟨connection, member, mapping, found, _⟩ := mem_getChunksForFile.mp listed
  refine ⟨connection, member, mapping, List.mem_of_find?_eq_some found, ?_⟩
  simpa using List.find?_some found

theorem reports_of_location {storage : TcpStorage} {fileName : Bytes} {chunkId : Int32}
    {ip : IpAddr} (located : ip ∈ storage.getLocation fileName chunkId) :
    ∃ connection ∈ storage.connections, Reports fileName connection := by
  obtain ⟨connection, member, _, mapping, within, named, _⟩ := mem_getLocation.mp located
  exact ⟨connection, member, mapping, within, named⟩

/-- A file is in the list exactly when it has addresses, which is exactly when a connection
reports it; no name is in the list twice, and what has chunks or locations is in it. -/
theorem catalogue_agrees (storage : TcpStorage) (fileName : Bytes) :
    (fileName ∈ storage.getFileList ↔ storage.getFileLocations fileName ≠ []) ∧
    (fileName ∈ storage.getFileList ↔
      ∃ connection ∈ storage.connections, Reports fileName connection) ∧
    storage.getFileList.Nodup ∧
    (storage.getChunksForFile fileName ≠ [] → fileName ∈ storage.getFileList) ∧
    ∀ chunkId, storage.getLocation fileName chunkId ≠ [] → fileName ∈ storage.getFileList := by
  refine ⟨?_, mem_getFileList_iff_reports, getFileList_nodup storage, ?_, ?_⟩
  · rw [mem_getFileList_iff_reports, getFileLocations_ne_nil]
  · intro nonempty
    obtain ⟨chunkId, listed⟩ := List.exists_mem_of_ne_nil _ nonempty
    exact mem_getFileList_iff_reports.mpr (reports_of_chunk listed)
  · intro chunkId nonempty
    obtain ⟨ip, located⟩ := List.exists_mem_of_ne_nil _ nonempty
    exact mem_getFileList_iff_reports.mpr (reports_of_location located)

end DistributedFileSystem.Master
