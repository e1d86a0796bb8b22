import DistributedFileSystem.StorageLayer.ChunkStore

/-!
The paths of different chunks: they differ as long as one of them fits into the buffer
that it is printed to.
-/

namespace DistributedFileSystem.StorageLayer

open ByteString Posix Transition

structure HeaderValue where
  text : Bytes
  visible : ∀ byte ∈ text, byte ≠ 0 ∧ byte ≠ 10 ∧ byte ≠ 13
  trimmed : ∀ byte, text.head? = some byte ∨ text.getLast? = some byte → byte ≠ 32 ∧ byte ≠ 9

def fullPath (filename : Bytes) (chunkId : Int32) : Bytes :=
  ascii "data/" ++ filename ++ ascii "/" ++ decimal chunkId

theorem chunkPath_eq_take (filename : Bytes) (chunkId : Int32) :
    chunkPath filename chunkId = (fullPath filename chunkId).take 511 := rfl

theorem chunkPath_eq_append (filename : Bytes) (chunkId : Int32) :
    chunkPath filename chunkId =
      ascii "data/" ++ (filename ++ ascii "/" ++ decimal chunkId).take 506 := by
  rw [chunkPath_eq_take, fullPath, List.append_assoc, List.append_assoc, ← List.append_assoc filename]
  rfl

theorem fullPath_length (filename : Bytes) (chunkId : Int32) :
    (fullPath filename chunkId).length = filename.length + (decimal chunkId).length + 6 := by
  have front : (ascii "data/").length = 5 := by decide
  have separator : (ascii "/").length = 1 := by decide
  simp only [fullPath, List.length_append, front, separator]
  omega

theorem last_split {front front' last last' : Bytes} (plain : slash ∉ last)
    (plain' : slash ∉ last') (same : front ++ slash :: last = front' ++ slash :: last') :
    front = front' ∧ last = last' := by
  have split := congrArg components same
  rw [components_append, components_append, components_name plain, components_name plain'] at split
  obtain ⟨_, lasts⟩ := List.append_inj' split rfl
  obtain rfl := List.singleton_inj.mp lasts
  exact ⟨List.append_cancel_right same, rfl⟩

theorem fullPath_injective {filename other : Bytes} {chunkId otherId : Int32}
    (same : fullPath filename chunkId = fullPath other otherId) :
    filename = other ∧ chunkId = otherId := by
  simp only [fullPath, List.append_assoc] at same
  obtain ⟨names, ids⟩ := last_split (decimal_valid chunkId).2.1 (decimal_valid otherId).2.1
    (List.append_cancel_left same)
  exact ⟨names, decimal_injective ids⟩

/-- Only a path that reaches the end of the buffer can be that of another chunk. -/
theorem full_of_same {filename other : Bytes} {chunkId otherId : Int32}
    (different : (other, otherId) ≠ (filename, chunkId))
    (same : chunkPath other otherId = chunkPath filename chunkId) :
    511 ≤ (fullPath filename chunkId).length := by
  by_contra short
  have whole : (fullPath filename chunkId).take 511 = fullPath filename chunkId :=
    List.take_of_length_le (by omega)
  rw [chunkPath_eq_take, chunkPath_eq_take, whole] at same
  have lengths := congrArg List.length same
  rw [List.length_take] at lengths
  rw [List.take_of_length_le (by omega)] at same
  obtain ⟨rfl, rfl⟩ := fullPath_injective same
  exact different rfl

theorem decimal_visible {chunkId : Int32} {byte : UInt8} (member : byte ∈ decimal chunkId) :
    33 ≤ byte.toNat := by
  rcases decimal_range member with rfl | range
  · decide
  · omega

def below (name : HeaderValue) (chunkId : Int32) : HeaderValue where
  text := name.text ++ slash :: decimal chunkId
  visible := by
    intro byte member
    rcases List.mem_append.mp member with own | tail
    · exact name.visible byte own
    · rcases List.mem_cons.mp tail with rfl | digit
      · decide
      · have large := decimal_visible digit
        refine ⟨?_, ?_, ?_⟩ <;> rintro rfl <;> simp at large
  trimmed := by
    rintro byte (first | last)
    · cases front : name.text with
      | nil =>
          rw [front, List.nil_append, List.head?_cons, Option.some.injEq] at first
          subst first
          decide
      | cons letter rest =>
          rw [front, List.cons_append, List.head?_cons, Option.some.injEq] at first
          subst first
          exact name.trimmed letter (Or.inl (by rw [front]; rfl))
    · have digit : byte ∈ decimal chunkId := by
        apply List.mem_of_getLast?
        rw [← last, ← List.singleton_append, ← List.append_assoc,
          List.getLast?_append_of_ne_nil _ (decimal_ne_nil chunkId)]
      have large := decimal_visible digit
      refine ⟨?_, ?_⟩ <;> rintro rfl <;> simp at large

theorem below_same {name : HeaderValue} {chunkId : Int32}
    (full : 511 ≤ (fullPath name.text chunkId).length) (belowId : Int32) :
    chunkPath (below name chunkId).text belowId = chunkPath name.text chunkId := by
  have begins : fullPath (below name chunkId).text belowId =
      fullPath name.text chunkId ++ ascii "/" ++ decimal belowId := by
    simp [fullPath, below, ascii, slash]
  rw [chunkPath_eq_take, chunkPath_eq_take, begins, List.append_assoc,
    List.take_append_of_le_length full]

theorem below_differs (name : HeaderValue) (chunkId belowId : Int32) :
    ((below name chunkId).text, belowId) ≠ (name.text, chunkId) := by
  intro same
  have lengths := congrArg List.length (Prod.mk.inj same).1
  simp [below] at lengths

/-- Against every other chunk, a path is its own exactly when it does not fill the buffer, which
holds 511 bytes and the terminator. Two chunks have different paths exactly when
one of them is so short or what follows `data/` differs within the buffer. -/
theorem paths_distinct_iff (name : HeaderValue) (chunkId : Int32) :
    ((∀ (other : HeaderValue) (otherId : Int32), (other.text, otherId) ≠ (name.text, chunkId) →
        chunkPath other.text otherId ≠ chunkPath name.text chunkId) ↔
      name.text.length + (decimal chunkId).length ≤ 504) ∧
    ∀ (other : HeaderValue) (otherId : Int32), (other.text, otherId) ≠ (name.text, chunkId) →
      (chunkPath other.text otherId ≠ chunkPath name.text chunkId ↔
        name.text.length + (decimal chunkId).length ≤ 504 ∨
        other.text.length + (decimal otherId).length ≤ 504 ∨
        (other.text ++ ascii "/" ++ decimal otherId).take 506 ≠
          (name.text ++ ascii "/" ++ decimal chunkId).take 506) := by
  have count := fullPath_length name.text chunkId
  constructor
  · constructor
    · intro alone
      by_contra long
      exact alone (below name chunkId) 0 (below_differs name chunkId 0)
        (below_same (by omega) 0)
    · intro short other otherId different same
      have full := full_of_same different same
      omega
  · intro other otherId different
    have otherCount := fullPath_length other.text otherId
    constructor
    · intro apart
      by_contra both
      simp only [not_or, ne_eq, not_not] at both
      rw [chunkPath_eq_append, chunkPath_eq_append, both.2.2] at apart
      exact apart rfl
    · intro cases same
      have full := full_of_same different same
      have otherFull := full_of_same (Ne.symm different) same.symm
      rcases cases with short | short | apart
      · omega
      · omega
      · rw [chunkPath_eq_append, chunkPath_eq_append] at same
        exact apart (List.append_cancel_left same)

def longText : Bytes := List.replicate 250 97 ++ slash :: List.replicate 255 98

def longName : HeaderValue where
  text := longText
  visible := by decide +kernel
  trimmed := by
    have first : longText.head? = some 97 := rfl
    have last : longText.getLast? = some 98 := by decide +kernel
    rw [first, last]
    rintro byte (same | same)
    · rw [← Option.some.inj same]
      decide
    · rw [← Option.some.inj same]
      decide

theorem longName_collides :
    chunkPath longName.text 1 = chunkPath longName.text 0 ∧
    ((run step emptyStorage
      [⟨.save longName.text (ascii "x") 0, fun _ => []⟩,
        ⟨.save longName.text (ascii "y") 1, fun _ => []⟩,
        ⟨.read longName.text 1, fun _ => []⟩]).map fun ended => ended.1.map Prod.snd) =
      some [.saved true, .saved true, .opened none] ∧
    ¬∀ (name other : HeaderValue) (chunkId otherId : Int32),
      (other.text, otherId) ≠ (name.text, chunkId) →
        chunkPath other.text otherId ≠ chunkPath name.text chunkId := by
  have same : chunkPath longName.text 1 = chunkPath longName.text 0 := by decide +kernel
  refine ⟨same, by decide +kernel, ?_⟩
  intro apart
  exact apart longName longName 0 1 (by simp) same

end DistributedFileSystem.StorageLayer
