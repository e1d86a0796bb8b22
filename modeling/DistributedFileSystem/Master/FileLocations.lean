import DistributedFileSystem.Master.FileLookup

/-!
The addresses that the master answers for the removal of a file
(`get_file_locations` of `state/storage_unit.rs`), as texts, against the
locations of its chunks.
-/

namespace DistributedFileSystem.Master

open ByteString

namespace IpAddr

def hexDigits (value : Nat) : Bytes :=
  (Nat.toDigits 16 value).map fun letter => letter.toNat.toUInt8

def octets (bits : BitVec 32) : List Nat :=
  [24, 16, 8, 0].map fun shift => (bits >>> shift).toNat % 2 ^ 8

def segments (bits : BitVec 128) : List Nat :=
  [112, 96, 80, 64, 48, 32, 16, 0].map fun shift => (bits >>> shift).toNat % 2 ^ 16

structure Span where
  start : Nat
  len : Nat
  deriving DecidableEq, Repr

def zeroes (segments : List Nat) : Span × Span :=
  segments.zipIdx.foldl (fun (longest, current) (segment, i) =>
    if segment = 0 then
      let current : Span := ⟨if current.len = 0 then i else current.start, current.len + 1⟩
      (if current.len > longest.len then current else longest, current)
    else (longest, ⟨0, 0⟩)) (⟨0, 0⟩, ⟨0, 0⟩)

def fmtSubslice (chunk : List Nat) : Bytes :=
  (ascii ":").intercalate (chunk.map hexDigits)

def fmtV4 (bits : BitVec 32) : Bytes := (ascii ".").intercalate ((octets bits).map digits)

def fmtV6 (bits : BitVec 128) : Bytes :=
  if bits >>> 32 = 0xffff then ascii "::ffff:" ++ fmtV4 (bits.setWidth 32)
  else
    let longest := (zeroes (segments bits)).1
    if longest.len > 1 then
      fmtSubslice ((segments bits).take longest.start) ++ ascii "::" ++
        fmtSubslice ((segments bits).drop (longest.start + longest.len))
    else fmtSubslice (segments bits)

def toString : IpAddr → Bytes
  | .v4 bits => fmtV4 bits
  | .v6 bits => fmtV6 bits

example : toString (.v4 0x7f000001) = ascii "127.0.0.1" := by decide

example : toString (.v6 0x20010db8000000010000000000000001) = ascii "2001:db8:0:1::1" := by decide

end IpAddr

/-- The test in the loop is for the name of the file among the texts so far. -/
def TcpStorage.getFileLocations (storage : TcpStorage) (fileName : Bytes) : List Bytes :=
  storage.connections.foldl (fun res connData =>
    if connData.filesToChunks.any fun fileMappings =>
      fileMappings.filename = fileName && !res.contains fileMappings.filename
    then res ++ [connData.ip.toString] else res) []

def Reports (fileName : Bytes) (connection : ConnectionData) : Prop :=
  ∃ fileMappings ∈ connection.filesToChunks, fileMappings.filename = fileName

instance (fileName : Bytes) : DecidablePred (Reports fileName) := fun _ =>
  inferInstanceAs (Decidable (∃ fileMappings ∈ _, _))

def reporters (storage : TcpStorage) (fileName : Bytes) : List ConnectionData :=
  storage.connections.filter (Reports fileName)

def Shown (storage : TcpStorage) (fileName text : Bytes) : Prop :=
  ∃ earlier connection later, reporters storage fileName = earlier ++ connection :: later ∧
    connection.ip.toString = text ∧ ∀ other ∈ earlier, other.ip.toString ≠ fileName

section Walk

variable {Item : Type*} (text : Item → Bytes) (stop : Bytes)

def showUntil (res : List Bytes) (item : Item) : List Bytes :=
  if stop ∈ res then res else res ++ [text item]

/-- What the walk shows: all up to the first item that reads like `stop`, and that one. -/
theorem foldl_showUntil (items : List Item) {res : List Bytes} (going : stop ∉ res) :
    items.foldl (showUntil text stop) res =
      res ++ (items.takeWhile (fun item => text item ≠ stop)).map text ++
        ((items.dropWhile fun item => text item ≠ stop).take 1).map text := by
  induction items generalizing res with
  | nil => simp
  | cons item items ih =>
      rw [List.foldl_cons, showUntil, if_neg going]
      by_cases same : text item = stop
      · have idle : ∀ rest : List Item,
            rest.foldl (showUntil text stop) (res ++ [text item]) = res ++ [text item] := by
          intro rest
          induction rest with
          | nil => rfl
          | cons other rest still =>
              rw [List.foldl_cons, showUntil, if_pos (by simp [same]), still]
        rw [idle]
        simp [same]
      · rw [ih (by simpa [going] using Ne.symm same)]
        simp [same]

theorem split_cons_iff {shown : Bytes} (first : Item) (items : List Item) :
    (∃ earlier item later, first :: items = earlier ++ item :: later ∧ text item = shown ∧
        ∀ other ∈ earlier, text other ≠ stop) ↔
      text first = shown ∨ text first ≠ stop ∧
        ∃ earlier item later, items = earlier ++ item :: later ∧ text item = shown ∧
          ∀ other ∈ earlier, text other ≠ stop := by
  constructor
  · rintro ⟨earlier, item, later, split, same, before⟩
    cases earlier with
    | nil =>
        rw [(List.cons.inj split).1]
        exact Or.inl same
    | cons other earlier =>
        obtain ⟨rfl, rest⟩ := List.cons.inj split
        rw [List.forall_mem_cons] at before
        exact Or.inr ⟨before.1, earlier, item, later, rest, same, before.2⟩
  · rintro (same | ⟨different, earlier, item, later, rfl, same, before⟩)
    · exact ⟨[], first, items, rfl, same, by simp⟩
    · exact ⟨first :: earlier, item, later, rfl, same, List.forall_mem_cons.mpr ⟨different, before⟩⟩

theorem mem_showUntil (items : List Item) (shown : Bytes) :
    shown ∈ items.foldl (showUntil text stop) [] ↔
      ∃ earlier item later, items = earlier ++ item :: later ∧ text item = shown ∧
        ∀ other ∈ earlier, text other ≠ stop := by
  rw [foldl_showUntil text stop items List.not_mem_nil, List.nil_append]
  induction items with
  | nil => simp
  | cons item items ih =>
      rw [split_cons_iff, ← ih]
      by_cases same : text item = stop
      · simp [same, @eq_comm _ shown]
      · rw [List.takeWhile_cons_of_pos (by simpa using same),
          List.dropWhile_cons_of_pos (by simpa using same), List.map_cons, List.cons_append,
          List.mem_cons, and_iff_right same, @eq_comm _ shown]

end Walk

theorem getFileLocations_eq (storage : TcpStorage) (fileName : Bytes) :
    storage.getFileLocations fileName =
      (reporters storage fileName).foldl
        (showUntil (fun connection => connection.ip.toString) fileName) [] := by
  rw [reporters, List.foldl_filter, TcpStorage.getFileLocations]
  congr
  funext res connData
  rw [showUntil]
  by_cases stopped : fileName ∈ res
  · have idle : ¬(connData.filesToChunks.any fun fileMappings =>
        fileMappings.filename = fileName && !res.contains fileMappings.filename) = true := by
      simp only [List.any_eq_true, Bool.and_eq_true, decide_eq_true_eq, Bool.not_eq_true']
      rintro ⟨fileMappings, _, rfl, new⟩
      simp [stopped] at new
    rw [if_neg idle, if_pos stopped, ite_self]
  · have pushes : (connData.filesToChunks.any fun fileMappings =>
        fileMappings.filename = fileName && !res.contains fileMappings.filename) = true ↔
          Reports fileName connData := by
      simp only [List.any_eq_true, Bool.and_eq_true, decide_eq_true_eq, Bool.not_eq_true', Reports]
      refine exists_congr fun fileMappings => and_congr_right fun _ => and_iff_left_of_imp ?_
      rintro rfl
      simpa using stopped
    simp only [pushes, if_neg stopped, decide_eq_true_eq]

theorem mem_getFileLocations {storage : TcpStorage} {fileName text : Bytes} :
    text ∈ storage.getFileLocations fileName ↔ Shown storage fileName text := by
  rw [getFileLocations_eq, mem_showUntil]
  rfl

/-- Without a reporter whose address reads like the name, every reporter is shown. -/
theorem shown_of_unlike {storage : TcpStorage} {fileName : Bytes}
    (unlike : ∀ connection ∈ reporters storage fileName, connection.ip.toString ≠ fileName)
    {connection : ConnectionData} (member : connection ∈ reporters storage fileName) :
    Shown storage fileName connection.ip.toString := by
  obtain ⟨earlier, later, split⟩ := List.append_of_mem member
  refine ⟨earlier, connection, later, split, rfl, ?_⟩
  intro other before
  apply unlike
  rw [split]
  exact List.mem_append_left _ before

/-- Every address that a chunk of the file is located at is answered as a text exactly when no
connection that reports the file, before the first with that address, has an address
that reads like the name. -/
theorem file_locations_cover_iff (storage : TcpStorage) (fileName : Bytes) :
    (∀ chunkId, (∀ ip ∈ storage.getLocation fileName chunkId,
        ip.toString ∈ storage.getFileLocations fileName) ↔
      ∀ connection ∈ storage.connections, (∃ mapping ∈ connection.filesToChunks,
        mapping.filename = fileName ∧ chunkId ∈ mapping.chunkIds) →
          Shown storage fileName connection.ip.toString) ∧
    ((∀ connection ∈ reporters storage fileName, connection.ip.toString ≠ fileName) →
      ∀ connection ∈ storage.connections, Reports fileName connection →
        connection.ip.toString ∈ storage.getFileLocations fileName) := by
  simp only [mem_getFileLocations]
  constructor
  · intro chunkId
    constructor
    · rintro covered connection member held
      exact covered connection.ip (mem_getLocation.mpr ⟨connection, member, rfl, held⟩)
    · rintro shown ip located
      obtain ⟨connection, member, rfl, held⟩ := mem_getLocation.mp located
      exact shown connection member held
  · intro unlike connection member reports
    exact shown_of_unlike unlike (List.mem_filter.mpr ⟨member, by simpa using reports⟩)

def namedLikeAddress : TcpStorage :=
  { connections := [⟨"a", .v4 0x0a000001, [⟨ascii "10.0.0.1", [0]⟩]⟩,
      ⟨"b", .v4 0x0a000002, [⟨ascii "10.0.0.1", [0]⟩]⟩]
    indexToWrite := 0
    replicationFactor := 1 }

theorem second_holder_unreached :
    namedLikeAddress.getLocation (ascii "10.0.0.1") 0 = [.v4 0x0a000001, .v4 0x0a000002] ∧
      namedLikeAddress.getFileLocations (ascii "10.0.0.1") = [ascii "10.0.0.1"] ∧
      ¬∀ ip ∈ namedLikeAddress.getLocation (ascii "10.0.0.1") 0,
        ip.toString ∈ namedLikeAddress.getFileLocations (ascii "10.0.0.1") := by
  decide

end DistributedFileSystem.Master
