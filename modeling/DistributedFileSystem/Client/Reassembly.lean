import DistributedFileSystem.Client.ReadFile

/-!
Cutting a file into chunks and putting it together again, wherever the chunks
have gone and however the storage nodes list them.
-/

namespace DistributedFileSystem.Client

open ByteString Master

/-- Every chunk is assigned to the connection at some position, and each connection
lists, in one mapping of the file at most, the chunks assigned to it and no others. -/
structure Spread (storage : TcpStorage) (fileName content : Bytes) (assigned : Nat → Nat → Prop) :
    Prop where
  somewhere : ∀ chunkId < totalChunks content,
    ∃ position < storage.connections.length, assigned chunkId position
  once : ∀ connection ∈ storage.connections,
    (connection.filesToChunks.countP fun mapping => mapping.filename = fileName) ≤ 1
  listed : ∀ position connection, storage.connections[position]? = some connection →
    ∀ id : Int32, (∃ mapping ∈ connection.filesToChunks,
        mapping.filename = fileName ∧ id ∈ mapping.chunkIds) ↔
      ∃ chunkId < totalChunks content, id = Int32.ofNat chunkId ∧ assigned chunkId position

theorem find?_of_countP_le_one {α : Type} {values : List α} {kind : α → Bool} {value : α}
    (once : values.countP kind ≤ 1) (member : value ∈ values) (holds : kind value = true) :
    values.find? kind = some value := by
  induction values with
  | nil => contradiction
  | cons first rest ih =>
      rw [List.countP_cons] at once
      rcases List.mem_cons.mp member with rfl | later
      · exact List.find?_cons_of_pos holds
      · have some := List.countP_pos_iff.mpr ⟨value, later, holds⟩
        have other : ¬kind first = true := by
          intro same
          rw [if_pos same] at once
          omega
        rw [List.find?_cons_of_neg other]
        exact ih (by omega) later

section Spread

variable {storage : TcpStorage} {fileName content : Bytes} {assigned : Nat → Nat → Prop}

theorem chunkOf_length_le (content : Bytes) (chunkId : Nat) :
    (chunkOf content chunkId).length ≤ CHUNK_SIZE := by
  rw [chunkOf_eq, List.length_take]
  exact Nat.min_le_left _ _

theorem Spread.lists_iff (spread : Spread storage fileName content assigned) (id : Int32) :
    storage.Lists fileName id ↔ ∃ chunkId < totalChunks content, id = Int32.ofNat chunkId := by
  constructor
  · rintro ⟨connection, member, mapping, found, holds⟩
    obtain ⟨position, here⟩ := List.mem_iff_getElem?.mp member
    have named := List.find?_some found
    rw [decide_eq_true_eq] at named
    obtain ⟨chunkId, bound, same, _⟩ := (spread.listed position connection here id).mp
      ⟨mapping, List.mem_of_find?_eq_some found, named, holds⟩
    exact ⟨chunkId, bound, same⟩
  · rintro ⟨chunkId, bound, rfl⟩
    obtain ⟨position, inside, assigned⟩ := spread.somewhere chunkId bound
    have here := List.getElem?_eq_getElem inside
    have member := List.getElem_mem inside
    obtain ⟨mapping, within, named, holds⟩ :=
      (spread.listed position _ here (Int32.ofNat chunkId)).mpr ⟨chunkId, bound, rfl, assigned⟩
    exact ⟨_, member, mapping, find?_of_countP_le_one (spread.once _ member) within
      (by simpa using named), holds⟩

theorem Spread.stored (fits : totalChunks content < 2 ^ 31)
    (spread : Spread storage fileName content assigned) : Stored storage fileName content := by
  intro id listed
  obtain ⟨chunkId, bound, rfl⟩ := (spread.lists_iff id).mp listed
  rw [Int32.toInt_ofNat_of_lt (by omega)]
  omega

theorem getChunksForFile_eq_of_listedIds (stored : Stored storage fileName content) :
    storage.getChunksForFile fileName = (listedIds storage fileName).map Int32.ofNat := by
  have back : ∀ id ∈ storage.getChunksForFile fileName, Int32.ofNat id.toInt.toNat = id := by
    intro id member
    obtain ⟨lower, _⟩ := stored id (mem_getChunksForFile.mp member)
    rw [← Int32.ofInt_eq_ofNat, Int.toNat_of_nonneg lower, Int32.ofInt_toInt]
  have whole := List.map_congr_left back
  rw [List.map_id'] at whole
  rw [listedIds, List.map_map]
  exact whole.symm

/-- A file of fewer than `2 ^ 31` chunks, however they are spread: every chunk has between
one byte and `8192`; the master lists the chunks in order, each once; their bytes in that
order are the file; and so is the output of a read that comes through, if the storage
nodes serve what was stored. -/
theorem spread_reassembled (storage : TcpStorage) (fileName content : Bytes)
    (assigned : Nat → Nat → Prop) (fits : totalChunks content < 2 ^ 31)
    (spread : Spread storage fileName content assigned) :
    (∀ chunkId < totalChunks content,
      1 ≤ (chunkOf content chunkId).length ∧ (chunkOf content chunkId).length ≤ 8192) ∧
    storage.getChunksForFile fileName =
      (List.range (totalChunks content)).map Int32.ofNat ∧
    (storage.getChunksForFile fileName).flatMap (fun id => chunkOf content id.toInt.toNat) =
      content ∧
    ∀ environment output, environment.Serves fileName content →
      readFile storage storage fileName environment = (true, output) → output = content := by
  have stored := spread.stored fits
  have all : listedIds storage fileName = List.range (totalChunks content) := by
    rw [listedIds_eq_range_iff fits.le stored]
    intro chunkId bound
    exact (spread.lists_iff _).mpr ⟨chunkId, bound, rfl⟩
  have joined : (listedIds storage fileName).flatMap (chunkOf content) = content := by
    rw [all, flatMap_chunkOf_all]
  refine ⟨?_, ?_, ?_, ?_⟩
  · intro chunkId bound
    exact ⟨List.length_pos_iff.mpr (chunkOf_ne_nil bound), chunkOf_length_le content chunkId⟩
  · rw [getChunksForFile_eq_of_listedIds stored, all]
  · rw [← List.flatMap_map]
    exact joined
  · intro environment output serves returned
    rw [(readFile_output serves returned).1, joined]

def overlapping : TcpStorage :=
  { connections := [⟨"a", .v4 1, [⟨[103], [7]⟩, ⟨[102], [1, 0, 1]⟩]⟩, ⟨"b", .v4 2, [⟨[102], [1]⟩]⟩]
    indexToWrite := 0
    replicationFactor := 1 }

theorem overlapping_spread :
    Spread overlapping [102] twoChunks fun chunkId position => position = 0 ∨ chunkId = 1 := by
  have two : ∀ id : Int32, (id = 0 ∨ id = 1) ↔
      ∃ chunkId < 2, id = Int32.ofNat chunkId := by
    intro id
    constructor
    · rintro (rfl | rfl)
      · exact ⟨0, by decide, rfl⟩
      · exact ⟨1, by decide, rfl⟩
    · rintro ⟨chunkId, bound, rfl⟩
      obtain rfl | rfl : chunkId = 0 ∨ chunkId = 1 := by omega
      · exact Or.inl rfl
      · exact Or.inr rfl
  refine ⟨?_, by decide, ?_⟩
  · intro chunkId _
    exact ⟨0, by decide, Or.inl rfl⟩
  · intro position connection here id
    rw [totalChunks_twoChunks]
    match position with
    | 0 =>
        obtain rfl := Option.some.inj here
        have twice : (id = 1 ∨ id = 0 ∨ id = 1) ↔ (id = 0 ∨ id = 1) :=
          or_iff_right_of_imp Or.inr
        simpa [twice] using two id
    | 1 =>
        obtain rfl := Option.some.inj here
        simp
    | position + 2 => simp [overlapping] at here

theorem spread_reassembled_overlapping :
    overlapping.getChunksForFile [102] = (List.range (totalChunks twoChunks)).map Int32.ofNat ∧
    (overlapping.getChunksForFile [102]).flatMap (fun id => chunkOf twoChunks id.toInt.toNat) =
      twoChunks := by
  have whole := spread_reassembled overlapping [102] twoChunks _
    (by rw [totalChunks_twoChunks]; decide) overlapping_spread
  exact ⟨whole.2.1, whole.2.2.1⟩

end Spread

end DistributedFileSystem.Client
