import DistributedFileSystem.Library.Positions
import DistributedFileSystem.Master.StorageUnit
import Mathlib.Data.Int.ModEq
import Mathlib.Data.List.Dedup
import Mathlib.Order.Interval.Finset.Nat
import Mathlib.Logic.Function.Basic

/-!
Choosing the nodes a chunk is written to
(`http_handlers/get_server_to_write_chunk_and_chunkid.rs`) by requests that are
in progress at once: each locks the registry anew for every replica.
-/

namespace DistributedFileSystem.Master

open Positions

structure Placement where
  storage : TcpStorage
  collected : Nat → List (Option IpAddr)

def addReplica (replicationCount : Int) (placement : Placement) (request : Nat) :
    Option Placement :=
  if (placement.collected request).length < replicationCount then
    (placement.storage.incrementIndexAndReturnAddr).map fun (address, storage) =>
      { storage := storage
        collected := Function.update placement.collected request
          (placement.collected request ++ [address]) }
  else some placement

def answer (collected : List (Option IpAddr)) : List IpAddr := collected.dedup.filterMap id

def place (replicationCount : Int) (storage : TcpStorage) (schedule : List Nat) :
    Option Placement :=
  schedule.foldlM (addReplica replicationCount) { storage := storage, collected := fun _ => [] }

def returnServerToWriteChunk (replicationCount : Int) (storage : TcpStorage) :
    Option (List IpAddr × TcpStorage) :=
  (place replicationCount storage (List.replicate replicationCount.toNat 0)).map
    fun placement => (answer (placement.collected 0), placement.storage)

def ranks (request : Nat) (schedule : List Nat) : List Nat :=
  positions (fun turn => turn = request) schedule

def modulus (storage : TcpStorage) : Nat := (TcpStorage.asI32 storage.connections.length).natAbs

theorem asI32_of_lt {value : Nat} (bound : value < 2 ^ 31) : TcpStorage.asI32 value = value := by
  unfold TcpStorage.asI32
  rw [Int.bmod_def]
  omega

theorem asI32_natAbs_le (value : Nat) : (TcpStorage.asI32 value).natAbs ≤ value := by
  unfold TcpStorage.asI32
  rw [Int.bmod_def]
  omega

theorem modulus_eq {storage : TcpStorage} (bound : storage.connections.length < 2 ^ 31) :
    modulus storage = storage.connections.length := by
  rw [modulus, asI32_of_lt bound, Int.natAbs_natCast]

def turned (storage : TcpStorage) (turns : Nat) : Int :=
  (max storage.indexToWrite (-1) + turns) % modulus storage

theorem increment_spec {storage next : TcpStorage} {address : Option IpAddr}
    (nonempty : storage.connections ≠ [])
    (ran : storage.incrementIndexAndReturnAddr = some (address, next)) :
    next = { storage with indexToWrite := turned storage 1 } ∧ 0 ≤ turned storage 1 ∧
      address = (storage.connections[(turned storage 1).toNat]?).map ConnectionData.ip ∧
      (turned storage 1).toNat < storage.connections.length := by
  have positive : 0 < storage.connections.length := List.length_pos_iff.mpr nonempty
  have counted : storage.connections.length ≠ 0 := by omega
  simp only [TcpStorage.incrementIndexAndReturnAddr, counted, if_false, Option.map_eq_some_iff,
    Prod.mk.injEq] at ran
  obtain ⟨index, chosen, rfl, rfl⟩ := ran
  suffices stepped : index = turned storage 1 ∧ 0 ≤ index ∧
      index.toNat < storage.connections.length by
    obtain ⟨rfl, lower, upper⟩ := stepped
    exact ⟨rfl, lower, rfl, upper⟩
  by_cases negative : storage.indexToWrite < 0
  · rw [if_pos negative, Option.some.injEq] at chosen
    subst chosen
    have start : max storage.indexToWrite (-1) = -1 := by omega
    have first : turned storage 1 = 0 := by
      rw [turned, start, Nat.cast_one, neg_add_cancel, Int.zero_emod]
    exact ⟨first.symm, by omega, by simpa using positive⟩
  · rw [if_neg negative] at chosen
    split at chosen
    · simp at chosen
    · rename_i sound
      simp only [not_or] at sound
      rw [Option.some.injEq, Int.tmod_eq_emod_of_nonneg (by omega)] at chosen
      have start : max storage.indexToWrite (-1) = storage.indexToWrite := by omega
      have divisor : 0 < modulus storage := Int.natAbs_pos.mpr sound.2
      have inRange := asI32_natAbs_le storage.connections.length
      have same : index = turned storage 1 := by
        rw [← chosen, turned, start, modulus, Int.natCast_natAbs, Int.emod_abs, Nat.cast_one]
      have lower : 0 ≤ turned storage 1 := Int.emod_nonneg _ (by omega)
      have upper : turned storage 1 < modulus storage := Int.emod_lt_of_pos _ (by omega)
      rw [same]
      refine ⟨rfl, lower, ?_⟩
      simp only [modulus] at upper
      omega

def turnAddress (storage : TcpStorage) (turns : Nat) : Option IpAddr :=
  (storage.connections[(turned storage turns).toNat]?).map ConnectionData.ip

theorem turned_succ {storage next : TcpStorage} {turns : Nat}
    (count : next.connections.length = storage.connections.length)
    (index : next.indexToWrite = turned storage turns) (lower : 0 ≤ turned storage turns) :
    turned next 1 = turned storage (turns + 1) := by
  have start : max (turned storage turns) (-1) = turned storage turns := by omega
  rw [turned, index, start, turned, turned, modulus, modulus, count, Int.emod_add_emod,
    Nat.cast_add, add_assoc]

theorem ranks_length (request : Nat) (schedule : List Nat) :
    (ranks request schedule).length = schedule.count request := by
  rw [ranks, positions_length, List.count]
  congr

structure Placed (storage : TcpStorage) (schedule : List Nat) (final : Placement) : Prop where
  connections : final.storage.connections = storage.connections
  turned : turned final.storage 1 = turned storage (schedule.length + 1)
  collected : ∀ request, final.collected request =
    (ranks request schedule).map fun rank => turnAddress storage (rank + 1)
  inRange : ∀ rank < schedule.length, 0 ≤ Master.turned storage (rank + 1) ∧
    (Master.turned storage (rank + 1)).toNat < storage.connections.length

theorem place_concat (replicationCount : Int) (storage : TcpStorage) (schedule : List Nat)
    (turn : Nat) : place replicationCount storage (schedule ++ [turn]) =
      (place replicationCount storage schedule).bind
        fun placement => addReplica replicationCount placement turn := by
  rw [place, List.foldlM_append]
  simp [place]

theorem place_placed {storage : TcpStorage} (nonempty : storage.connections ≠ [])
    {replicationCount : Nat} {schedule : List Nat} {final : Placement}
    (turns : ∀ request, schedule.count request ≤ replicationCount)
    (placed : place replicationCount storage schedule = some final) :
    Placed storage schedule final := by
  induction schedule using List.reverseRecOn generalizing final with
  | nil =>
      obtain rfl := Option.some.inj placed
      exact ⟨rfl, rfl, fun _ => rfl, by simp⟩
  | append_singleton schedule turn ih =>
      rw [place_concat, Option.bind_eq_some_iff] at placed
      obtain ⟨before, earlier, stepped⟩ := placed
      have kept := ih (fun request => by
        have all := turns request
        rw [List.count_append] at all
        omega) earlier
      have unfinished : ((before.collected turn).length : Int) < replicationCount := by
        have all := turns turn
        rw [List.count_append] at all
        simp only [List.count_singleton, beq_self_eq_true, if_true] at all
        rw [kept.collected, List.length_map, ranks_length]
        omega
      rw [addReplica, if_pos unfinished, Option.map_eq_some_iff] at stepped
      obtain ⟨⟨address, next⟩, incremented, rfl⟩ := stepped
      have somebody : before.storage.connections ≠ [] := by rw [kept.connections]; exact nonempty
      obtain ⟨rfl, lower, same, upper⟩ := increment_spec somebody incremented
      rw [kept.turned] at lower same upper
      rw [kept.connections] at same upper
      refine ⟨kept.connections, ?_, ?_, ?_⟩
      · rw [List.length_append, List.length_singleton]
        exact turned_succ (by rw [kept.connections]) kept.turned lower
      · intro request
        rw [ranks, positions_concat, ← ranks]
        by_cases own : turn = request
        · subst own
          simp [kept.collected, same, turnAddress]
        · simp [own, Ne.symm own, kept.collected]
      · intro rank bound
        rw [List.length_append, List.length_singleton] at bound
        by_cases last : rank = schedule.length
        · subst last
          exact ⟨lower, upper⟩
        · exact kept.inRange rank (by omega)

theorem increment_isSome {storage : TcpStorage} (few : storage.connections.length < 2 ^ 31)
    (index : storage.indexToWrite < TcpStorage.i32Max) :
    ∃ address next, storage.incrementIndexAndReturnAddr = some (address, next) ∧
      next.connections = storage.connections ∧ next.indexToWrite < TcpStorage.i32Max := by
  by_cases empty : storage.connections = []
  · exact ⟨none, storage, by simp [TcpStorage.incrementIndexAndReturnAddr, empty], rfl, index⟩
  · have positive : 0 < storage.connections.length := List.length_pos_iff.mpr empty
    have divisor : TcpStorage.asI32 storage.connections.length ≠ 0 := by
      rw [asI32_of_lt few]
      omega
    have defined : ∃ address next,
        storage.incrementIndexAndReturnAddr = some (address, next) := by
      rw [TcpStorage.incrementIndexAndReturnAddr, if_neg (by omega)]
      by_cases negative : storage.indexToWrite < 0
      · exact ⟨_, _, by rw [if_pos negative]; rfl⟩
      · exact ⟨_, _, by rw [if_neg negative, if_neg (by simp [divisor]; omega)]; rfl⟩
    obtain ⟨address, next, ran⟩ := defined
    obtain ⟨rfl, _, _, upper⟩ := increment_spec empty ran
    refine ⟨address, _, ran, rfl, ?_⟩
    simp only [TcpStorage.i32Max]
    omega

theorem place_isSome {storage : TcpStorage} (few : storage.connections.length < 2 ^ 31)
    (index : storage.indexToWrite < TcpStorage.i32Max) (replicationCount : Int)
    (schedule : List Nat) :
    ∃ final, place replicationCount storage schedule = some final ∧
      final.storage.connections = storage.connections ∧
      final.storage.indexToWrite < TcpStorage.i32Max := by
  induction schedule using List.reverseRecOn with
  | nil => exact ⟨_, rfl, rfl, index⟩
  | append_singleton schedule turn ih =>
      obtain ⟨before, earlier, connections, below⟩ := ih
      rw [place_concat, earlier, Option.bind_some, addReplica]
      split
      · obtain ⟨address, next, ran, same, bound⟩ :=
          increment_isSome (by rw [connections]; exact few) below
        exact ⟨_, by rw [ran]; rfl, same.trans connections, bound⟩
      · exact ⟨before, rfl, connections, below⟩

theorem turned_eq_iff (storage : TcpStorage) (left right : Nat) :
    turned storage (left + 1) = turned storage (right + 1) ↔
      left % modulus storage = right % modulus storage := by
  have cancel : turned storage (left + 1) = turned storage (right + 1) ↔
      (left : Int) ≡ right [ZMOD modulus storage] := by
    unfold turned
    push_cast
    constructor
    · intro same
      exact Int.ModEq.add_right_cancel' 1 (Int.ModEq.add_left_cancel' _ same)
    · intro same
      exact (same.add_right 1).add_left _
  rw [cancel, Int.natCast_modEq_iff]
  rfl

theorem turnAddress_eq_iff {storage : TcpStorage} {schedule : List Nat} {final : Placement}
    (placed : Placed storage schedule final)
    (distinct : (storage.connections.map ConnectionData.ip).Nodup) {left right : Nat}
    (leftBound : left < schedule.length) (rightBound : right < schedule.length) :
    turnAddress storage (left + 1) = turnAddress storage (right + 1) ↔
      left % modulus storage = right % modulus storage := by
  obtain ⟨leftLower, leftUpper⟩ := placed.inRange left leftBound
  obtain ⟨rightLower, rightUpper⟩ := placed.inRange right rightBound
  rw [← turned_eq_iff, turnAddress, turnAddress, ← List.getElem?_map, ← List.getElem?_map,
    List.getElem?_inj (by simpa using leftUpper) distinct]
  omega

theorem dedup_map_length {α β γ : Type} [DecidableEq β] [DecidableEq γ] {values : List α}
    {first : α → β} {second : α → γ}
    (same : ∀ left ∈ values, ∀ right ∈ values,
      first left = first right ↔ second left = second right) :
    (values.map first).dedup.length = (values.map second).dedup.length := by
  induction values with
  | nil => rfl
  | cons value rest ih =>
      have tail := ih fun left leftIn right rightIn =>
        same left (by simp [leftIn]) right (by simp [rightIn])
      have again : first value ∈ rest.map first ↔ second value ∈ rest.map second := by
        simp only [List.mem_map]
        constructor
        · rintro ⟨other, member, equal⟩
          exact ⟨other, member, (same other (by simp [member]) value (by simp)).mp equal⟩
        · rintro ⟨other, member, equal⟩
          exact ⟨other, member, (same other (by simp [member]) value (by simp)).mpr equal⟩
      rw [List.map_cons, List.map_cons]
      by_cases known : first value ∈ rest.map first
      · rw [List.dedup_cons_of_mem known, List.dedup_cons_of_mem (again.mp known), tail]
      · rw [List.dedup_cons_of_notMem known, List.dedup_cons_of_notMem (mt again.mpr known),
          List.length_cons, List.length_cons, tail]

theorem answer_length {storage : TcpStorage} {schedule : List Nat} {final : Placement}
    (placed : Placed storage schedule final)
    (distinct : (storage.connections.map ConnectionData.ip).Nodup) (request : Nat) :
    (answer (final.collected request)).length =
      ((ranks request schedule).map (· % modulus storage)).dedup.length := by
  have all : (answer (final.collected request)).length =
      (final.collected request).dedup.length := by
    rw [answer, List.filterMap_length_eq_length]
    intro address member
    rw [List.mem_dedup, placed.collected] at member
    obtain ⟨rank, ranked, rfl⟩ := List.mem_map.mp member
    obtain ⟨_, upper⟩ := placed.inRange rank (positions_lt _ ranked)
    simp [turnAddress, upper]
  rw [all, placed.collected]
  apply dedup_map_length
  intro left leftIn right rightIn
  exact turnAddress_eq_iff placed distinct (positions_lt _ leftIn) (positions_lt _ rightIn)

/-- Over any interleaving of the turns of any requests, on a registry of distinct
addresses: a request that has taken all of its turns answers with as many addresses
as asked for, or as there are, exactly when its turns fall on as many different
places of the rotation. -/
theorem replicas_distinct_iff (storage : TcpStorage)
    (distinct : (storage.connections.map ConnectionData.ip).Nodup)
    (nonempty : storage.connections ≠ []) (replicationCount : Nat) (schedule : List Nat)
    (turns : ∀ request, schedule.count request ≤ replicationCount) :
    (storage.connections.length < 2 ^ 31 → storage.indexToWrite < TcpStorage.i32Max →
      (place replicationCount storage schedule).isSome ∧
        modulus storage = storage.connections.length) ∧
    ∀ final, place replicationCount storage schedule = some final →
      ∀ request, schedule.count request = replicationCount →
        ((answer (final.collected request)).length =
            min replicationCount storage.connections.length ↔
          ((ranks request schedule).map (· % modulus storage)).dedup.length =
            min replicationCount storage.connections.length) := by
  constructor
  · intro few index
    obtain ⟨final, placed, _⟩ := place_isSome few index replicationCount schedule
    exact ⟨by simp [placed], modulus_eq few⟩
  · intro final placed request _
    rw [answer_length (place_placed nonempty turns placed) distinct]

theorem consecutive_dedup_length (start count : Nat) {size : Nat} (positive : 0 < size) :
    ((List.range' start count).map (· % size)).dedup.length = min count size := by
  have image : ∀ length, ((List.range' start length).map (· % size)).dedup.length =
      ((Finset.Ico start (start + length)).image (· % size)).card := by
    intro length
    rw [← List.card_toFinset, ← List.toFinset_range'_1]
    congr 1
    ext place
    simp
  rw [image]
  have round := Nat.image_Ico_mod start size
  rcases Nat.le_total size count with long | short
  · have whole : (Finset.Ico start (start + count)).image (· % size) = Finset.range size := by
      apply Finset.Subset.antisymm
      · intro place member
        obtain ⟨rank, _, rfl⟩ := Finset.mem_image.mp member
        exact Finset.mem_range.mpr (Nat.mod_lt rank positive)
      · rw [← round]
        exact Finset.image_subset_image (Finset.Ico_subset_Ico_right (by omega))
    rw [whole, Finset.card_range, Nat.min_eq_right long]
  · have injective : Set.InjOn (· % size) (Finset.Ico start (start + size)) := by
      apply Finset.card_image_iff.mp
      rw [round, Finset.card_range, Nat.card_Ico]
      omega
    have within : Finset.Ico start (start + count) ⊆ Finset.Ico start (start + size) :=
      Finset.Ico_subset_Ico_right (by omega)
    rw [Finset.card_image_of_injOn (injective.mono (Finset.coe_subset.mpr within)), Nat.card_Ico,
      Nat.min_eq_left short]
    omega

theorem ranks_consecutive {request : Nat} {before after : List Nat} (count : Nat)
    (absentBefore : request ∉ before) (absentAfter : request ∉ after) :
    ranks request (before ++ List.replicate count request ++ after) =
      List.range' before.length count := by
  have others : ∀ {turns : List Nat}, request ∉ turns →
      ∀ turn ∈ turns, decide (turn = request) = false := by
    intro turns absent turn member
    rw [decide_eq_false_iff_not]
    rintro rfl
    exact absent member
  rw [ranks, positions_block _ (others absentBefore) ?_ (others absentAfter),
    List.length_replicate]
  intro turn member
  simp [List.eq_of_mem_replicate member]

theorem uninterrupted_distinct {storage : TcpStorage}
    (distinct : (storage.connections.map ConnectionData.ip).Nodup)
    (nonempty : storage.connections ≠ []) {replicationCount request : Nat}
    {before after : List Nat} {final : Placement} (few : storage.connections.length < 2 ^ 31)
    (turns : ∀ other, (before ++ List.replicate replicationCount request ++ after).count other ≤
      replicationCount)
    (placed : place replicationCount storage
      (before ++ List.replicate replicationCount request ++ after) = some final) :
    (answer (final.collected request)).length =
      min replicationCount storage.connections.length := by
  have alone := turns request
  simp only [List.count_append, List.count_replicate_self] at alone
  have absentBefore : request ∉ before := List.count_eq_zero.mp (by omega)
  have absentAfter : request ∉ after := List.count_eq_zero.mp (by omega)
  rw [answer_length (place_placed nonempty turns placed) distinct,
    ranks_consecutive _ absentBefore absentAfter, modulus_eq few]
  exact consecutive_dedup_length _ _ (List.length_pos_iff.mpr nonempty)

theorem increment_nobody {storage : TcpStorage} (nobody : storage.connections = []) :
    storage.incrementIndexAndReturnAddr = some (none, storage) := by
  rw [TcpStorage.incrementIndexAndReturnAddr, if_pos (by rw [nobody, List.length_nil])]

theorem place_nobody {storage : TcpStorage} (nobody : storage.connections = [])
    {replicationCount : Int} {schedule : List Nat} {final : Placement}
    (placed : place replicationCount storage schedule = some final) :
    final.storage = storage ∧ ∀ request, ∀ address, some address ∉ final.collected request := by
  induction schedule using List.reverseRecOn generalizing final with
  | nil =>
      obtain rfl := Option.some.inj placed
      exact ⟨rfl, by simp⟩
  | append_singleton schedule turn ih =>
      rw [place_concat, Option.bind_eq_some_iff] at placed
      obtain ⟨before, earlier, stepped⟩ := placed
      obtain ⟨same, nowhere⟩ := ih earlier
      rw [addReplica, same, increment_nobody nobody] at stepped
      split at stepped
      · obtain rfl := Option.some.inj stepped
        refine ⟨rfl, ?_⟩
        intro request address
        by_cases own : request = turn
        · subst own
          simpa using nowhere request address
        · simpa [own] using nowhere request address
      · obtain rfl := Option.some.inj stepped
        exact ⟨same, nowhere⟩

theorem mem_answer {collected : List (Option IpAddr)} {address : IpAddr} :
    address ∈ answer collected ↔ some address ∈ collected := by
  simp [answer]

theorem returned_eq_nil_iff {replicationCount : Int} {storage next : TcpStorage}
    {addresses : List IpAddr}
    (returned : returnServerToWriteChunk replicationCount storage = some (addresses, next)) :
    addresses = [] ↔ replicationCount ≤ 0 ∨ storage.connections = [] := by
  obtain ⟨final, placed, same⟩ := Option.map_eq_some_iff.mp returned
  obtain ⟨rfl, _⟩ := Prod.mk.inj same
  constructor
  · intro empty
    by_contra both
    simp only [not_or, not_le] at both
    obtain ⟨positive, somebody⟩ := both
    obtain ⟨count, rfl⟩ := Int.eq_ofNat_of_zero_le positive.le
    rw [Int.toNat_natCast] at placed
    have kept := place_placed somebody (fun request => by
      rw [List.count_replicate]
      split <;> omega) placed
    have turns := @ranks_consecutive 0 [] [] count List.not_mem_nil List.not_mem_nil
    rw [List.nil_append, List.append_nil] at turns
    have upper := (kept.inRange 0 (by simpa using positive)).2
    have first : storage.connections[(turned storage 1).toNat].ip ∈
        answer (final.collected 0) := by
      rw [mem_answer, kept.collected, turns, List.mem_map]
      refine ⟨0, by simpa using positive, ?_⟩
      simp [turnAddress, List.getElem?_eq_getElem upper]
    simp [empty] at first
  · rintro (few | nobody)
    · rw [Int.toNat_of_nonpos few, List.replicate_zero] at placed
      obtain rfl := Option.some.inj placed
      rfl
    · apply List.eq_nil_iff_forall_not_mem.mpr
      intro address member
      exact (place_nobody nobody placed).2 0 address (mem_answer.mp member)

theorem returned_connected {replicationCount : Int} {storage next : TcpStorage}
    {addresses : List IpAddr}
    (returned : returnServerToWriteChunk replicationCount storage = some (addresses, next))
    {address : IpAddr} (member : address ∈ addresses) :
    ∃ connection ∈ storage.connections, connection.ip = address := by
  have somebody : ¬(replicationCount ≤ 0 ∨ storage.connections = []) := by
    rw [← returned_eq_nil_iff returned]
    exact List.ne_nil_of_mem member
  simp only [not_or, not_le] at somebody
  obtain ⟨final, placed, same⟩ := Option.map_eq_some_iff.mp returned
  obtain ⟨rfl, _⟩ := Prod.mk.inj same
  obtain ⟨count, rfl⟩ := Int.eq_ofNat_of_zero_le somebody.1.le
  rw [Int.toNat_natCast] at placed
  have kept := place_placed somebody.2 (fun request => by
    rw [List.count_replicate]
    split <;> omega) placed
  rw [mem_answer, kept.collected, List.mem_map] at member
  obtain ⟨rank, _, turn⟩ := member
  obtain ⟨connection, here, same⟩ := Option.map_eq_some_iff.mp turn
  exact ⟨connection, List.mem_of_getElem? here, same⟩

def twoNodes : TcpStorage :=
  ((TcpStorage.new 2).insert "a" (.v4 1)).insert "b" (.v4 2)

theorem replicas_distinct_iff_twoNodes :
    (twoNodes.connections.length < 2 ^ 31 → twoNodes.indexToWrite < TcpStorage.i32Max →
      (place (2 : Nat) twoNodes [0, 0, 1, 1]).isSome ∧
        modulus twoNodes = twoNodes.connections.length) ∧
    ∀ final, place (2 : Nat) twoNodes [0, 0, 1, 1] = some final →
      ∀ request, [0, 0, 1, 1].count request = 2 →
        ((answer (final.collected request)).length = min 2 twoNodes.connections.length ↔
          ((ranks request [0, 0, 1, 1]).map (· % modulus twoNodes)).dedup.length =
            min 2 twoNodes.connections.length) :=
  replicas_distinct_iff twoNodes (by decide) (by decide) 2 [0, 0, 1, 1] (by
    intro request
    simp only [List.count_cons, List.count_nil, beq_iff_eq]
    split <;> split <;> omega)

theorem alternating_turns_collide : ¬∀ (storage : TcpStorage) (replicationCount : Nat)
    (schedule : List Nat) (final : Placement) (request : Nat),
    (storage.connections.map ConnectionData.ip).Nodup → storage.connections ≠ [] →
    1 ≤ replicationCount → (∀ other, schedule.count other ≤ replicationCount) →
    place replicationCount storage schedule = some final →
    schedule.count request = replicationCount →
    (answer (final.collected request)).length =
      min replicationCount storage.connections.length := by
  intro always
  have ended : (place (2 : Nat) twoNodes [0, 1, 0, 1]).map (fun final =>
      answer (final.collected 0)) = some [.v4 2] := by decide
  obtain ⟨final, placed, same⟩ := Option.map_eq_some_iff.mp ended
  have two := always twoNodes 2 [0, 1, 0, 1] final 0 (by decide) (by decide) (by decide) (by
    intro other
    simp only [List.count_cons, List.count_nil, beq_iff_eq]
    split <;> split <;> omega) placed (by decide)
  simp [same, twoNodes, TcpStorage.insert, TcpStorage.new] at two

end DistributedFileSystem.Master
