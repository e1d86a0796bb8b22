import DistributedFileSystem.Client.InsertFile
import DistributedFileSystem.Library.FirstFailure
import DistributedFileSystem.Master.FileLocations

/-!
The removal of a file by the client (`client/removeFile.ts`): one request after the
other, for the addresses that the master answers with.
-/

namespace DistributedFileSystem.Client

open ByteString FirstFailure Master

/-- The text between `//` and `:8002` of the URL, and the header `X-Filename`. -/
structure Removal where
  locationOfFile : Bytes
  fileName : Bytes
  deriving DecidableEq, Repr

/-- What `for (let x in values)` binds `x` to: the indices, as texts. -/
def keys (values : List Bytes) : List Bytes := (List.range values.length).map digits

section Delete

variable (respond : List Removal → Response) (fileName : Bytes)

def removeEach (asked : List Removal) : List Bytes → List Removal × Bool
  | [] => (asked, true)
  | locationOfFile :: rest =>
      let asked := asked ++ [⟨locationOfFile, fileName⟩]
      match respond asked with
      | .error => (asked, false)
      | .status code => if code ≠ 200 then (asked, false) else removeEach asked rest

/-- The requests in their order, and the result; `answer` is the master's, `none` for an error,
and `respond` may depend on all requests so far. -/
def deleteFile (answer : Option (List Bytes)) : List Removal × Bool :=
  match answer with
  | none => ([], false)
  | some locations => removeEach respond fileName [] (keys locations)

def Succeeded (asked : List Removal) : Prop := respond asked = .status 200

instance : DecidablePred (Succeeded respond) := fun _ => inferInstanceAs (Decidable (_ = _))

def removals (locations : List Bytes) : List Removal :=
  locations.map fun locationOfFile => ⟨locationOfFile, fileName⟩

theorem removeEach_eq (asked : List Removal) (locations : List Bytes) :
    removeEach respond fileName asked locations =
      attemptAll (Succeeded respond) asked (removals fileName locations) := by
  induction locations generalizing asked with
  | nil => rfl
  | cons locationOfFile rest ih =>
      rw [removeEach, removals, List.map_cons, attemptAll, ← removals]
      have tested : Succeeded respond (asked ++ [⟨locationOfFile, fileName⟩]) ↔
          respond (asked ++ [⟨locationOfFile, fileName⟩]) = .status 200 := Iff.rfl
      cases answered : respond (asked ++ [⟨locationOfFile, fileName⟩]) with
      | error => rw [if_neg (by simp [tested, answered])]
      | status code =>
          by_cases accepted : code = 200
          · rw [if_pos (by simp [tested, answered, accepted]), ← ih]
            simp [accepted]
          · rw [if_neg (by simp [tested, answered, accepted])]
            simp [accepted]

end Delete

/-- The requests go to the hosts of the list in order, one for each address, end at the first
that does not succeed, and the result says whether one has succeeded for every address. `host` is
what the text in a URL names. -/
structure ContactsHolders {Host : Type*} (host : Bytes → Host) (respond : List Removal → Response)
    (locations : List Bytes) (asked : List Removal) (result : Bool) : Prop where
  inOrder : asked.map (fun removal => host removal.locationOfFile) <+: locations.map host
  goesOn : ∀ i, i + 1 < asked.length → SucceedsAt (Succeeded respond) asked i
  stops : asked.length < locations.length → ∃ last, asked.length = last + 1 ∧
    ¬SucceedsAt (Succeeded respond) asked last
  result_iff : result = true ↔
    asked.length = locations.length ∧ ∀ i < asked.length, SucceedsAt (Succeeded respond) asked i

theorem keys_length (locations : List Bytes) : (keys locations).length = locations.length := by
  rw [keys, List.length_map, List.length_range]

section Hosts

variable {Host : Type*} (host : Bytes → Host) (respond : List Removal → Response)
  (fileName : Bytes) (locations : List Bytes)

theorem deleteFile_ended :
    Ended (Succeeded respond) (removals fileName (keys locations))
      (deleteFile respond fileName (some locations)).1
      (deleteFile respond fileName (some locations)).2 := by
  rw [deleteFile, removeEach_eq]
  exact attemptAll_ended _ _

theorem contactsHolders_iff_inOrder :
    ContactsHolders host respond locations (deleteFile respond fileName (some locations)).1
      (deleteFile respond fileName (some locations)).2 ↔
    (deleteFile respond fileName (some locations)).1.map
      (fun removal => host removal.locationOfFile) <+: locations.map host := by
  have ended := deleteFile_ended respond fileName locations
  have count : (removals fileName (keys locations)).length = locations.length := by
    rw [removals, List.length_map, keys_length]
  constructor
  · exact fun contacts => contacts.inOrder
  · intro inOrder
    refine ⟨inOrder, ended.goesOn, ?_, ?_⟩
    · rw [← count]
      exact ended.stops
    · rw [← count]
      exact ended.result_iff

theorem removals_keys_getElem? {i : Nat} (bound : i < locations.length) :
    (removals fileName (keys locations))[i]? = some ⟨digits i, fileName⟩ := by
  rw [removals, keys, List.getElem?_map, List.getElem?_map, List.getElem?_range bound]
  rfl

theorem asked_getElem {i : Nat}
    (made : i < (deleteFile respond fileName (some locations)).1.length) :
    (deleteFile respond fileName (some locations)).1[i] = ⟨digits i, fileName⟩ := by
  have inOrder := (deleteFile_ended respond fileName locations).inOrder
  have bound : i < locations.length := by
    have shorter := inOrder.length_le
    rw [removals, List.length_map, keys_length] at shorter
    omega
  have here := List.prefix_iff_getElem?.mp inOrder i made
  rw [removals_keys_getElem? fileName locations bound] at here
  exact (Option.some.inj here).symm

theorem asked_iff {i : Nat} :
    i < (deleteFile respond fileName (some locations)).1.length ↔ i < locations.length ∧
      ∀ j < i, SucceedsAt (Succeeded respond) (removals fileName (keys locations)) j := by
  rw [deleteFile, removeEach_eq, lt_length_attemptAll_iff, removals, List.length_map, keys_length]

/-- The requests go to the holders exactly when the index of each address that is
reached names the same host as the address. -/
theorem contactsHolders_iff :
    ContactsHolders host respond locations (deleteFile respond fileName (some locations)).1
      (deleteFile respond fileName (some locations)).2 ↔
    ∀ i location, locations[i]? = some location →
      (∀ j < i, SucceedsAt (Succeeded respond) (removals fileName (keys locations)) j) →
      host (digits i) = host location := by
  rw [contactsHolders_iff_inOrder, List.prefix_iff_getElem?]
  constructor
  · intro inOrder i location found succeeded
    obtain ⟨bound, _⟩ := List.getElem?_eq_some_iff.mp found
    have made := (asked_iff respond fileName locations).mpr ⟨bound, succeeded⟩
    have here := inOrder i (by simpa using made)
    rw [List.getElem?_map, found, List.getElem_map, asked_getElem respond fileName locations made,
      Option.map_some] at here
    exact (Option.some.inj here).symm
  · intro same i made
    rw [List.length_map] at made
    obtain ⟨bound, succeeded⟩ := (asked_iff respond fileName locations).mp made
    have found := List.getElem?_eq_getElem bound
    rw [List.getElem?_map, found, List.getElem_map, asked_getElem respond fileName locations made,
      Option.map_some, same i _ found succeeded]

end Hosts

section Texts

theorem mem_intercalate {byte : UInt8} {separator : Bytes} (member : byte ∈ separator)
    {pieces : List Bytes} (several : 2 ≤ pieces.length) : byte ∈ separator.intercalate pieces := by
  match pieces with
  | first :: second :: rest =>
      rw [List.intercalate_cons_cons]
      exact List.mem_append_left _ (List.mem_append_right _ member)

/-- Every text of an address has a point or a colon. -/
theorem toString_separated (ip : IpAddr) : 46 ∈ ip.toString ∨ 58 ∈ ip.toString := by
  cases ip with
  | v4 bits => exact Or.inl (mem_intercalate (by decide) (by simp [IpAddr.octets]))
  | v6 bits =>
      right
      rw [IpAddr.toString, IpAddr.fmtV6]
      split
      · exact List.mem_append_left _ (by decide)
      · dsimp only
        split
        · exact List.mem_append_left _ (List.mem_append_right _ (by decide))
        · exact mem_intercalate (by decide) (by simp [IpAddr.segments])

theorem toString_ne_digits (ip : IpAddr) (value : Nat) : ip.toString ≠ digits value := by
  intro same
  have separated := toString_separated ip
  rw [same] at separated
  rcases separated with point | colon
  · exact absurd (digits_range point) (by decide)
  · exact absurd (digits_range colon) (by decide)

theorem getFileLocations_text {storage : TcpStorage} {fileName text : Bytes}
    (member : text ∈ storage.getFileLocations fileName) : ∃ ip : IpAddr, ip.toString = text := by
  obtain ⟨_, connection, _, _, same, _⟩ := mem_getFileLocations.mp member
  exact ⟨connection.ip, same⟩

end Texts

/-- The requests go to the holders exactly when the index of each address that is reached
names the same host as the address. By the text in the URL this is never so for a list
that the master answers, but for the empty one. -/
theorem delete_contacts_iff {Host : Type*} (host : Bytes → Host)
    (respond : List Removal → Response) (fileName : Bytes) :
    (∀ locations, ContactsHolders host respond locations
        (deleteFile respond fileName (some locations)).1
        (deleteFile respond fileName (some locations)).2 ↔
      ∀ i location, locations[i]? = some location →
        (∀ j < i, SucceedsAt (Succeeded respond) (removals fileName (keys locations)) j) →
        host (digits i) = host location) ∧
    ∀ storage : TcpStorage, ContactsHolders id respond (storage.getFileLocations fileName)
        (deleteFile respond fileName (some (storage.getFileLocations fileName))).1
        (deleteFile respond fileName (some (storage.getFileLocations fileName))).2 ↔
      storage.getFileLocations fileName = [] := by
  refine ⟨fun locations => contactsHolders_iff host respond fileName locations, ?_⟩
  intro storage
  rw [contactsHolders_iff]
  constructor
  · intro same
    cases listed : storage.getFileLocations fileName with
    | nil => rfl
    | cons text rest =>
        have first := same 0 text (by rw [listed]; rfl) (by simp)
        obtain ⟨ip, rfl⟩ := getFileLocations_text (by rw [listed]; exact List.mem_cons_self)
        exact absurd first.symm (toString_ne_digits ip 0)
  · intro empty i location found
    rw [empty] at found
    simp at found

def oneHolder : TcpStorage :=
  { connections := [⟨"a", .v4 0x7f000001, [⟨ascii "f", [0]⟩]⟩]
    indexToWrite := 0
    replicationFactor := 1 }

theorem index_contacted :
    deleteFile (fun _ => .status 200) (ascii "f") (some (oneHolder.getFileLocations (ascii "f"))) =
      ([⟨ascii "0", ascii "f"⟩], true) ∧
    ¬∀ (respond : List Removal → Response) (fileName : Bytes) (storage : TcpStorage),
      ContactsHolders id respond (storage.getFileLocations fileName)
        (deleteFile respond fileName (some (storage.getFileLocations fileName))).1
        (deleteFile respond fileName (some (storage.getFileLocations fileName))).2 := by
  have located : oneHolder.getFileLocations (ascii "f") = [ascii "127.0.0.1"] := by decide
  have ran : deleteFile (fun _ => .status 200) (ascii "f") (some [ascii "127.0.0.1"]) =
      ([⟨ascii "0", ascii "f"⟩], true) := by decide
  rw [located]
  refine ⟨ran, ?_⟩
  intro contacts
  have inOrder := (contacts (fun _ => .status 200) (ascii "f") oneHolder).inOrder
  rw [located, ran] at inOrder
  revert inOrder
  decide

end DistributedFileSystem.Client
