import DistributedFileSystem.Library.Transition
import DistributedFileSystem.Master.ReplicaPlacement
import Mathlib.Data.Int.CardIntervalMod

/-!
The rotation of the write index over the calls that the tasks and the handlers
make on the registry: between two changes of the connections every one of them
gets its turn.
-/

namespace DistributedFileSystem.Master

open Transition

inductive Call where
  | insert (connectionId : ConnectionId) (ip : IpAddr)
  | remove (connectionId : ConnectionId)
  | updateState (connectionId : ConnectionId) (fileState : List FileMappings)
  | increment
  deriving DecidableEq, Repr

structure Selection where
  position : Nat
  address : Option IpAddr
  deriving DecidableEq, Repr

def call (storage : TcpStorage) : Call → Option (Option Selection × TcpStorage)
  | .insert connectionId ip => some (none, storage.insert connectionId ip)
  | .remove connectionId => some (none, storage.remove connectionId)
  | .updateState connectionId fileState => some (none, storage.updateState connectionId fileState)
  | .increment =>
      storage.incrementIndexAndReturnAddr.map fun (address, next) =>
        (some ⟨next.indexToWrite.toNat, address⟩, next)

def selections (trace : List (Call × Option Selection)) : List Selection :=
  trace.filterMap Prod.snd

def Few (storage : TcpStorage) : Prop := storage.connections.length < 2 ^ 31

def Call.KeepsConnections : Call → Prop
  | .increment => True
  | .updateState _ _ => True
  | _ => False

theorem selections_concat (trace : List (Call × Option Selection)) (turn : Call)
    (selection : Option Selection) :
    selections (trace ++ [(turn, selection)]) = selections trace ++ selection.toList := by
  cases selection <;> simp [selections]

theorem updateState_ips (storage : TcpStorage) (connectionId : ConnectionId)
    (fileState : List FileMappings) :
    (storage.updateState connectionId fileState).connections.map ConnectionData.ip =
      storage.connections.map ConnectionData.ip := by
  have walks : ∀ connections : List ConnectionData,
      (changeFirst connectionId (fun c => c.updateState fileState) connections).map
        ConnectionData.ip = connections.map ConnectionData.ip := by
    intro connections
    induction connections with
    | nil => rfl
    | cons connection rest ih =>
        rw [changeFirst]
        split
        · rfl
        · rw [List.map_cons, List.map_cons, ih]
  exact walks storage.connections

theorem length_of_ips {left right : TcpStorage}
    (same : left.connections.map ConnectionData.ip = right.connections.map ConnectionData.ip) :
    left.connections.length = right.connections.length := by
  simpa using congrArg List.length same

theorem turned_congr {left right : TcpStorage}
    (same : left.connections.map ConnectionData.ip = right.connections.map ConnectionData.ip)
    (index : left.indexToWrite = right.indexToWrite) (turns : Nat) :
    turned left turns = turned right turns := by
  rw [turned, turned, index, modulus, modulus, length_of_ips same]

theorem call_index {storage next : TcpStorage} {turn : Call} {selection : Option Selection}
    (below : storage.indexToWrite < TcpStorage.i32Max) (few : Few next)
    (called : call storage turn = some (selection, next)) :
    next.indexToWrite < TcpStorage.i32Max := by
  cases turn with
  | insert connectionId ip =>
      obtain ⟨_, rfl⟩ := Prod.mk.inj (Option.some.inj called)
      simp only [TcpStorage.insert]
      split
      · decide
      · exact below
  | remove connectionId =>
      obtain ⟨_, rfl⟩ := Prod.mk.inj (Option.some.inj called)
      exact below
  | updateState connectionId fileState =>
      obtain ⟨_, rfl⟩ := Prod.mk.inj (Option.some.inj called)
      exact below
  | increment =>
      obtain ⟨⟨address, final⟩, ran, same⟩ := Option.map_eq_some_iff.mp called
      obtain ⟨_, rfl⟩ := Prod.mk.inj same
      by_cases nobody : storage.connections = []
      · rw [increment_nobody nobody] at ran
        obtain ⟨_, rfl⟩ := Prod.mk.inj (Option.some.inj ran)
        exact below
      · obtain ⟨rfl, _, _, upper⟩ := increment_spec nobody ran
        simp only [Few] at few
        simp only [TcpStorage.i32Max]
        omega

structure Rotated (storage : TcpStorage) (turns : List Call)
    (trace : List (Call × Option Selection)) (final : TcpStorage) : Prop where
  ran : run call storage turns = some (trace, final)
  ips : final.connections.map ConnectionData.ip = storage.connections.map ConnectionData.ip
  below : final.indexToWrite < TcpStorage.i32Max
  turned : turned final 1 = Master.turned storage (turns.count .increment + 1)
  selections : selections trace = (List.range (turns.count .increment)).map fun rank =>
    ⟨(Master.turned storage (rank + 1)).toNat, turnAddress storage (rank + 1)⟩

theorem rotated {storage : TcpStorage} (few : Few storage) (nonempty : storage.connections ≠ [])
    (below : storage.indexToWrite < TcpStorage.i32Max) (turns : List Call)
    (keeps : ∀ turn ∈ turns, turn.KeepsConnections) :
    ∃ trace final, Rotated storage turns trace final := by
  induction turns using List.reverseRecOn with
  | nil => exact ⟨[], storage, rfl, rfl, below, rfl, rfl⟩
  | append_singleton turns turn ih =>
      obtain ⟨trace, middle, ran, ips, bound, next, selected⟩ :=
        ih fun other member => keeps other (by simp [member])
      have allowed := keeps turn (by simp)
      cases turn with
      | insert connectionId ip => exact absurd allowed (by simp [Call.KeepsConnections])
      | remove connectionId => exact absurd allowed (by simp [Call.KeepsConnections])
      | updateState connectionId fileState =>
          have same := updateState_ips middle connectionId fileState
          refine ⟨_, _, run_concat ran rfl, same.trans ips, bound, ?_, ?_⟩
          · rw [turned_congr same rfl, next]
            simp
          · rw [selections_concat, selected]
            simp
      | increment =>
          have somebody : middle.connections ≠ [] := by
            intro nobody
            rw [nobody, List.map_nil, eq_comm, List.map_eq_nil_iff] at ips
            exact nonempty ips
          obtain ⟨address, final, incremented, connections, upper⟩ :=
            increment_isSome (by rw [length_of_ips ips]; exact few) bound
          obtain ⟨rfl, lower, found, _⟩ := increment_spec somebody incremented
          refine ⟨_, _, run_concat ran (by rw [call, incremented]; rfl), ?_, upper, ?_, ?_⟩
          · exact ips
          · rw [List.count_append, List.count_singleton_self]
            exact turned_succ (length_of_ips ips) next (by rw [← next]; exact lower)
          · have address : address = turnAddress storage (turns.count .increment + 1) := by
              rw [found, next, turnAddress, ← List.getElem?_map, ips, List.getElem?_map]
            rw [selections_concat, selected, List.count_append, List.count_singleton_self,
              List.range_succ, List.map_append, address, next]
            rfl

theorem countP_range (holds : Nat → Prop) [DecidablePred holds] (count : Nat) :
    (List.range count).countP holds = count.count holds := by
  rw [Nat.count_eq_card_filter_range, List.countP_eq_length_filter]
  rfl

/-- Of consecutive numbers, those of one residue are a share of them rounded down or up. -/
theorem share_of_residue {size : Nat} (positive : 0 < size) (start position count : Nat)
    (bound : position < size) :
    (List.range count).countP (fun rank => (start + rank) % size = position) = count / size ∨
      (List.range count).countP (fun rank => (start + rank) % size = position) =
        (count + (size - 1)) / size := by
  let residue := position + (size - start % size)
  have same : ∀ rank, (start + rank) % size = position ↔ rank ≡ residue [MOD size] := by
    intro rank
    have whole : start + residue ≡ position [MOD size] := by
      have round := Nat.div_add_mod start size
      have inside := Nat.mod_lt start positive
      have sum : start + residue = position + size * (start / size + 1) := by
        rw [Nat.mul_add, Nat.mul_one]
        omega
      rw [sum]
      exact Nat.add_mul_mod_self_left position size _
    have own : position % size = position := Nat.mod_eq_of_lt bound
    constructor
    · intro hits
      apply Nat.ModEq.add_left_cancel' start
      exact (hits.trans own.symm : start + rank ≡ position [MOD size]).trans whole.symm
    · intro equal
      exact Eq.trans ((equal.add_left start).trans whole) own
  have counted := Nat.count_modEq_card count positive residue
  simp only [same]
  rw [countP_range, counted]
  split
  · rename_i more
    right
    have round := Nat.div_add_mod count size
    have inside := Nat.mod_lt count positive
    symm
    apply Nat.div_eq_of_lt_le
    · rw [Nat.add_mul, Nat.one_mul, Nat.mul_comm]
      omega
    · rw [Nat.add_mul, Nat.add_mul, Nat.one_mul, Nat.mul_comm]
      omega
  · exact Or.inl (Nat.add_zero _)

theorem turned_toNat {storage : TcpStorage} (few : Few storage) (rank : Nat) :
    (turned storage (rank + 1)).toNat =
      ((max storage.indexToWrite (-1) + 1).toNat + rank) % storage.connections.length := by
  have sum : max storage.indexToWrite (-1) + (rank + 1 : Nat) =
      (((max storage.indexToWrite (-1) + 1).toNat + rank : Nat) : Int) := by
    omega
  rw [turned, modulus_eq few, sum]
  exact Int.toNat_natCast _

theorem rotated_counts {storage final : TcpStorage} {turns : List Call}
    {trace : List (Call × Option Selection)} (few : Few storage)
    (nonempty : storage.connections ≠ []) (whole : Rotated storage turns trace final)
    {position : Nat} (bound : position < storage.connections.length) :
    ((selections trace).map Selection.position).count position =
        turns.count .increment / storage.connections.length ∨
      ((selections trace).map Selection.position).count position =
        (turns.count .increment + (storage.connections.length - 1)) /
          storage.connections.length := by
  have counted : ((selections trace).map Selection.position).count position =
      (List.range (turns.count .increment)).countP fun rank =>
        ((max storage.indexToWrite (-1) + 1).toNat + rank) % storage.connections.length =
          position := by
    rw [whole.selections, List.map_map, List.count, List.countP_map]
    congr
    funext rank
    simp [turned_toNat few, beq_eq_decide]
  rw [counted]
  exact share_of_residue (List.length_pos_iff.mpr nonempty) _ _ _ bound

theorem rotated_addresses {storage final : TcpStorage} {turns : List Call}
    {trace : List (Call × Option Selection)} (few : Few storage)
    (nonempty : storage.connections ≠ []) (whole : Rotated storage turns trace final) :
    ∀ selection ∈ selections trace, selection.position < storage.connections.length ∧
      selection.address = (storage.connections[selection.position]?).map ConnectionData.ip := by
  intro selection member
  rw [whole.selections] at member
  obtain ⟨rank, _, rfl⟩ := List.mem_map.mp member
  refine ⟨?_, rfl⟩
  simp only [turned_toNat few]
  exact Nat.mod_lt _ (List.length_pos_iff.mpr nonempty)

theorem answer_nodup (collected : List (Option IpAddr)) : (answer collected).Nodup := by
  apply collected.nodup_dedup.filterMap
  intro left right address inLeft inRight
  exact inLeft.trans inRight.symm

theorem returned_distinct {storage : TcpStorage} (few : Few storage)
    (nonempty : storage.connections ≠ []) (below : storage.indexToWrite < TcpStorage.i32Max)
    (distinct : (storage.connections.map ConnectionData.ip).Nodup) (replicationCount : Nat) :
    ∃ addresses next, returnServerToWriteChunk replicationCount storage = some (addresses, next) ∧
      addresses.Nodup ∧ addresses.length = min replicationCount storage.connections.length := by
  obtain ⟨final, placed, _⟩ := place_isSome few below replicationCount
    (List.replicate replicationCount 0)
  refine ⟨answer (final.collected 0), final.storage, ?_, answer_nodup _, ?_⟩
  · rw [returnServerToWriteChunk, Int.toNat_natCast, placed, Option.map_some]
  · refine @uninterrupted_distinct storage distinct nonempty replicationCount 0 [] [] final few ?_
      (by simpa using placed)
    intro other
    rw [List.nil_append, List.append_nil, List.count_replicate]
    split <;> omega

/-- From any state that calls have led to, with somebody connected: as long as nobody
comes or goes, every position is taken the same number of times, up to one; and a
request that has the registry to itself is answered with as many different addresses
as it asks for, or as there are. -/
theorem rotation_balanced (replicationFactor : Int) (calls : List Call)
    (trace : List (Call × Option Selection)) (storage : TcpStorage)
    (few : Always call Few (TcpStorage.new replicationFactor) calls)
    (reached : run call (TcpStorage.new replicationFactor) calls = some (trace, storage))
    (nonempty : storage.connections ≠ []) :
    (∀ turns : List Call, (∀ turn ∈ turns, turn.KeepsConnections) →
      ∃ trace final, run call storage turns = some (trace, final) ∧
        (selections trace).length = turns.count .increment ∧
        (∀ selection ∈ selections trace, selection.position < storage.connections.length ∧
          selection.address =
            (storage.connections[selection.position]?).map ConnectionData.ip) ∧
        ∀ position < storage.connections.length,
          ((selections trace).map Selection.position).count position =
              turns.count .increment / storage.connections.length ∨
            ((selections trace).map Selection.position).count position =
              (turns.count .increment + (storage.connections.length - 1)) /
                storage.connections.length) ∧
    ∀ replicationCount : Nat, (storage.connections.map ConnectionData.ip).Nodup →
      ∃ addresses next, returnServerToWriteChunk replicationCount storage = some (addresses, next) ∧
        addresses.Nodup ∧
        addresses.length = min replicationCount storage.connections.length := by
  have fewHere : Few storage := by
    refine few.keeps (fun _ _ _ _ _ _ holds => holds) ?_ reached
    simp [Few, TcpStorage.new]
  have below : storage.indexToWrite < TcpStorage.i32Max := by
    refine few.keeps (fun _ _ _ _ kept called holds => call_index kept holds called) ?_ reached
    simp [TcpStorage.new, TcpStorage.i32Max]
  constructor
  · intro turns keeps
    obtain ⟨trace, final, whole⟩ := rotated fewHere nonempty below turns keeps
    refine ⟨trace, final, whole.ran, ?_, rotated_addresses fewHere nonempty whole,
      fun _ => rotated_counts fewHere nonempty whole⟩
    rw [whole.selections, List.length_map, List.length_range]
  · intro replicationCount distinct
    exact returned_distinct fewHere nonempty below distinct replicationCount

def leftBehind : List Call :=
  [.insert "a" (.v4 1), .insert "b" (.v4 2), .insert "c" (.v4 3), .increment, .increment,
    .remove "c"]

def twoLeft : TcpStorage :=
  { connections := [⟨"a", .v4 1, []⟩, ⟨"b", .v4 2, []⟩], indexToWrite := 2, replicationFactor := 1 }

theorem leftBehind_few : Always call Few (TcpStorage.new 1) leftBehind := by
  refine ⟨_, _, rfl, ?_, _, _, rfl, ?_, _, _, rfl, ?_, _, _, rfl, ?_, _, _, rfl, ?_, _, _, rfl, ?_,
    trivial⟩
  all_goals
    unfold Few
    decide

theorem rotation_balanced_leftBehind :
    (∀ turns : List Call, (∀ turn ∈ turns, turn.KeepsConnections) →
      ∃ trace final, run call twoLeft turns = some (trace, final) ∧
        (selections trace).length = turns.count .increment ∧
        (∀ selection ∈ selections trace, selection.position < 2 ∧
          selection.address = (twoLeft.connections[selection.position]?).map ConnectionData.ip) ∧
        ∀ position < 2,
          ((selections trace).map Selection.position).count position =
              turns.count .increment / 2 ∨
            ((selections trace).map Selection.position).count position =
              (turns.count .increment + 1) / 2) ∧
    ∀ replicationCount : Nat, (twoLeft.connections.map ConnectionData.ip).Nodup →
      ∃ addresses next, returnServerToWriteChunk replicationCount twoLeft = some (addresses, next) ∧
        addresses.Nodup ∧ addresses.length = min replicationCount 2 :=
  rotation_balanced 1 leftBehind _ twoLeft leftBehind_few rfl (by decide)

end DistributedFileSystem.Master
