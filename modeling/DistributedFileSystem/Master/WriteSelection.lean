import DistributedFileSystem.Master.RoundRobin

/-!
The write index against connections that come and go: selecting a node stays
safe however stale the index is, while a node that leaves moves the turn of the
nodes behind it.
-/

namespace DistributedFileSystem.Master

open Positions Transition

theorem call_isSome {storage : TcpStorage} (few : Few storage)
    (below : storage.indexToWrite < TcpStorage.i32Max) (turn : Call) :
    ∃ selection next, call storage turn = some (selection, next) ∧
      next.indexToWrite < TcpStorage.i32Max := by
  cases turn with
  | insert connectionId ip =>
      refine ⟨_, _, rfl, ?_⟩
      simp only [TcpStorage.insert]
      split
      · decide
      · exact below
  | remove connectionId => exact ⟨_, _, rfl, below⟩
  | updateState connectionId fileState => exact ⟨_, _, rfl, below⟩
  | increment =>
      obtain ⟨address, next, incremented, _, bound⟩ := increment_isSome few below
      exact ⟨_, next, by rw [call, incremented]; rfl, bound⟩

theorem run_below (calls : List Call) (storage : TcpStorage)
    (below : storage.indexToWrite < TcpStorage.i32Max)
    (few : Guarded call (fun storage _ => Few storage) storage calls) :
    ∃ trace final, run call storage calls = some (trace, final) ∧
      final.indexToWrite < TcpStorage.i32Max := by
  refine @run_history _ _ _ call (fun storage _ => Few storage)
    (fun _ storage => storage.indexToWrite < TcpStorage.i32Max) ?_ calls [] storage below few
  intro history storage turn below few
  exact call_isSome few below turn

theorem increment_safe {storage : TcpStorage} (few : Few storage)
    (below : storage.indexToWrite < TcpStorage.i32Max) :
    ∃ address next, storage.incrementIndexAndReturnAddr = some (address, next) ∧
      (address = none ↔ storage.connections = []) ∧
      ∀ ip, address = some ip →
        (∃ connection ∈ storage.connections, connection.ip = ip) ∧
        next.connections = storage.connections ∧
        0 ≤ next.indexToWrite ∧ next.indexToWrite < next.connections.length := by
  by_cases nobody : storage.connections = []
  · exact ⟨none, storage, increment_nobody nobody, by simp [nobody], by simp⟩
  · obtain ⟨address, next, incremented, connections, _⟩ := increment_isSome few below
    obtain ⟨rfl, lower, found, upper⟩ := increment_spec nobody incremented
    rw [List.getElem?_eq_getElem upper, Option.map_some] at found
    refine ⟨address, _, incremented, by simp [found, nobody], ?_⟩
    rintro ip rfl
    obtain rfl := Option.some.inj found
    exact ⟨⟨_, List.getElem_mem upper, rfl⟩, rfl, lower, by simp only; omega⟩

/-- Whatever calls have been made while few connections were registered: the next selection
is defined, answers nothing only when nobody is registered, and otherwise the address of
a registered connection, with the index left inside the list. -/
theorem write_selection_safe (replicationFactor : Int) (calls : List Call)
    (few : Guarded call (fun storage _ => Few storage) (TcpStorage.new replicationFactor)
      (calls ++ [.increment])) :
    ∃ trace storage address next,
      run call (TcpStorage.new replicationFactor) calls = some (trace, storage) ∧
      storage.incrementIndexAndReturnAddr = some (address, next) ∧
      (address = none ↔ storage.connections = []) ∧
      ∀ ip, address = some ip →
        (∃ connection ∈ storage.connections, connection.ip = ip) ∧
        next.connections = storage.connections ∧
        0 ≤ next.indexToWrite ∧ next.indexToWrite < next.connections.length := by
  have initially : (TcpStorage.new replicationFactor).indexToWrite < TcpStorage.i32Max := by
    simp only [TcpStorage.new]
    decide
  obtain ⟨trace, storage, ran, below⟩ := run_below calls _ initially few.front
  obtain ⟨address, next, incremented, nobody, selected⟩ := increment_safe (few.back ran).1 below
  exact ⟨trace, storage, address, next, ran, incremented, nobody, selected⟩

theorem write_selection_safe_leftBehind :
    ∃ trace storage address next,
      run call (TcpStorage.new 1) leftBehind = some (trace, storage) ∧
      storage.incrementIndexAndReturnAddr = some (address, next) ∧
      (address = none ↔ storage.connections = []) ∧
      ∀ ip, address = some ip →
        (∃ connection ∈ storage.connections, connection.ip = ip) ∧
        next.connections = storage.connections ∧
        0 ≤ next.indexToWrite ∧ next.indexToWrite < next.connections.length :=
  write_selection_safe 1 leftBehind (leftBehind_few.guarded (by simp [Few, TcpStorage.new]) _)

def Selects (storage : TcpStorage) (connection : ConnectionData) : Prop :=
  ∃ address next, storage.incrementIndexAndReturnAddr = some (address, next) ∧
    storage.connections[next.indexToWrite.toNat]? = some connection

theorem reachable_started {replicationFactor : Int} {storage : TcpStorage}
    (reachable : TcpStorage.Reachable replicationFactor storage) :
    -1 ≤ storage.indexToWrite ∧ (storage.connections ≠ [] → 0 ≤ storage.indexToWrite) := by
  induction reachable with
  | new => simp [TcpStorage.new]
  | insert connectionId ip _ ih =>
      simp only [TcpStorage.insert]
      split <;> omega
  | @remove storage connectionId _ ih =>
      refine ⟨ih.1, fun somebody => ih.2 ?_⟩
      rintro nobody
      exact somebody (by simp [TcpStorage.remove, nobody])
  | @updateState storage connectionId fileState _ ih =>
      refine ⟨ih.1, fun somebody => ih.2 ?_⟩
      rintro nobody
      exact somebody (by simp [TcpStorage.updateState, nobody, changeFirst])
  | @increment storage next address _ incremented ih =>
      by_cases nobody : storage.connections = []
      · rw [increment_nobody nobody] at incremented
        obtain ⟨_, rfl⟩ := Prod.mk.inj (Option.some.inj incremented)
        exact ih
      · obtain ⟨rfl, lower, _⟩ := increment_spec nobody incremented
        exact ⟨by simp only; omega, fun _ => lower⟩

section Leaving

variable {storage : TcpStorage} {connection leaver : ConnectionData}

theorem increment_defined_iff (somebody : storage.connections ≠ [])
    (started : 0 ≤ storage.indexToWrite) :
    storage.incrementIndexAndReturnAddr.isSome ↔
      storage.indexToWrite ≠ TcpStorage.i32Max ∧ modulus storage ≠ 0 := by
  have counted : storage.connections.length ≠ 0 := by simpa using somebody
  rw [TcpStorage.incrementIndexAndReturnAddr, if_neg counted, if_neg (by omega), modulus]
  split
  · rename_i overflows
    refine iff_of_false (by simp) ?_
    rintro ⟨bounded, divisor⟩
    exact overflows.elim bounded (Int.natAbs_ne_zero.mp divisor)
  · rename_i sound
    rw [not_or] at sound
    exact iff_of_true rfl ⟨sound.1, Int.natAbs_ne_zero.mpr sound.2⟩

theorem selects_iff (started : 0 ≤ storage.indexToWrite) :
    Selects storage connection ↔ storage.indexToWrite ≠ TcpStorage.i32Max ∧
      modulus storage ≠ 0 ∧
      storage.connections[((storage.indexToWrite + 1) % modulus storage).toNat]? =
        some connection := by
  have start : max storage.indexToWrite (-1) = storage.indexToWrite := by omega
  have turn : turned storage 1 = (storage.indexToWrite + 1) % modulus storage := by
    rw [turned, start, Nat.cast_one]
  rw [← turn]
  constructor
  · rintro ⟨address, next, incremented, found⟩
    have somebody : storage.connections ≠ [] := by
      rintro nobody
      simp [nobody] at found
    have sound := (increment_defined_iff somebody started).mp (by rw [incremented]; rfl)
    obtain ⟨rfl, _⟩ := increment_spec somebody incremented
    exact ⟨sound.1, sound.2, found⟩
  · rintro ⟨bounded, divisor, found⟩
    have somebody : storage.connections ≠ [] := by
      rintro nobody
      simp [nobody] at found
    obtain ⟨⟨address, next⟩, incremented⟩ := Option.isSome_iff_exists.mp
      ((increment_defined_iff somebody started).mpr ⟨bounded, divisor⟩)
    obtain ⟨rfl, _⟩ := increment_spec somebody incremented
    exact ⟨address, _, incremented, found⟩

theorem remove_eq_erase (distinct : (storage.connections.map ConnectionData.connectionId).Nodup)
    (registered : leaver ∈ storage.connections) :
    (storage.remove leaver.connectionId).connections = storage.connections.erase leaver := by
  rw [distinct.of_map.erase_eq_filter, TcpStorage.remove]
  apply List.filter_congr
  intro other member
  have same : other.connectionId = leaver.connectionId ↔ other = leaver :=
    ⟨fun ids => List.inj_on_of_nodup_map distinct member registered ids, congrArg _⟩
  by_cases own : other = leaver
  · simp [own]
  · simp [own, same]

theorem selects_in (started : 0 ≤ storage.indexToWrite) (distinct : storage.connections.Nodup)
    (registered : connection ∈ storage.connections) :
    Selects storage connection ↔ storage.indexToWrite ≠ TcpStorage.i32Max ∧
      modulus storage ≠ 0 ∧
      (storage.indexToWrite + 1) % modulus storage = storage.connections.idxOf connection := by
  rw [selects_iff started]
  refine and_congr_right fun _ => and_congr_right fun divisor => ?_
  have lower := Int.emod_nonneg (storage.indexToWrite + 1) (Int.natCast_ne_zero.mpr divisor)
  have bound := List.idxOf_lt_length_of_mem registered
  rw [← List.getElem?_idxOf registered, eq_comm, List.getElem?_inj bound distinct]
  omega

/-- In a registry with its index inside the list, the one whose turn it is keeps it
when it is the only one left, or when neither the wrap nor the leaver stands before it. -/
theorem keeps_turn_iff (few : Few storage) (started : 0 ≤ storage.indexToWrite)
    (inside : storage.indexToWrite < storage.connections.length)
    (turn : (storage.indexToWrite + 1) % modulus storage =
      storage.connections.idxOf connection)
    (registered : connection ∈ storage.connections) (leaving : leaver ∈ storage.connections)
    (different : leaver ≠ connection) :
    ((storage.indexToWrite + 1) % (storage.connections.length - 1 : Nat) =
        (storage.connections.erase leaver).idxOf connection) ↔
      storage.connections.length = 2 ∨
        storage.indexToWrite + 1 < storage.connections.length ∧
          storage.connections.idxOf connection < storage.connections.idxOf leaver := by
  have apart : storage.connections.idxOf connection ≠ storage.connections.idxOf leaver := by
    intro same
    exact different ((List.idxOf_inj registered).mp same).symm
  have bound := List.idxOf_lt_length_of_mem registered
  have behind := List.idxOf_lt_length_of_mem leaving
  rw [idxOf_erase_other (Ne.symm different) leaving]
  rw [modulus_eq few] at turn
  by_cases wraps : storage.indexToWrite + 1 = storage.connections.length
  · -- the turn is the first one's, so the leaver stands behind it
    rw [wraps, Int.emod_self] at turn
    rw [wraps]
    by_cases pair : storage.connections.length = 2
    · rw [pair]
      simp only [true_or, iff_true]
      split <;> omega
    · have next : (storage.connections.length : Int) % (storage.connections.length - 1 : Nat) = 1 := by
        have sum : (storage.connections.length : Int) =
            1 + (storage.connections.length - 1 : Nat) := by omega
        rw [sum, Int.add_emod_right, Int.emod_eq_of_lt (by omega) (by omega)]
      rw [next]
      split <;> omega
  · rw [Int.emod_eq_of_lt (by omega) (by omega)] at turn
    by_cases last : storage.connections.idxOf connection = storage.connections.length - 1
    · have first : (storage.indexToWrite + 1) % (storage.connections.length - 1 : Nat) = 0 := by
        rw [turn, last, Int.emod_self]
      rw [first]
      split <;> omega
    · rw [Int.emod_eq_of_lt (by omega) (by omega), turn]
      split <;> omega

end Leaving

/-- A connection that leaves changes neither the order of the others nor the index, so the
next turn is that of the connection at the place of the rest that the index comes to. -/
theorem remove_rotation {replicationFactor : Int} {storage : TcpStorage}
    (reachable : TcpStorage.Reachable replicationFactor storage)
    (distinct : (storage.connections.map ConnectionData.connectionId).Nodup)
    {connection leaver : ConnectionData} (selected : Selects storage connection)
    (registered : leaver ∈ storage.connections) (different : leaver ≠ connection) :
    (storage.remove leaver.connectionId).connections = storage.connections.erase leaver ∧
    (storage.remove leaver.connectionId).indexToWrite = storage.indexToWrite ∧
    (∀ other ∈ storage.connections.erase leaver,
      (Selects (storage.remove leaver.connectionId) other ↔
        modulus (storage.remove leaver.connectionId) ≠ 0 ∧
          (storage.indexToWrite + 1) % modulus (storage.remove leaver.connectionId) =
            (storage.connections.erase leaver).idxOf other)) ∧
    (Few storage → storage.indexToWrite < storage.connections.length →
      (Selects (storage.remove leaver.connectionId) connection ↔
        storage.connections.length = 2 ∨
          storage.indexToWrite + 1 < storage.connections.length ∧
            storage.connections.idxOf connection < storage.connections.idxOf leaver)) := by
  have erased := remove_eq_erase distinct registered
  have nodup := distinct.of_map
  have somebody : storage.connections ≠ [] := List.ne_nil_of_mem registered
  have started := (reachable_started reachable).2 somebody
  obtain ⟨bounded, divisor, found⟩ := (selects_iff started).mp selected
  have member : connection ∈ storage.connections := List.mem_of_getElem? found
  have turn := ((selects_in started nodup member).mp selected).2.2
  have selection : ∀ other ∈ storage.connections.erase leaver,
      (Selects (storage.remove leaver.connectionId) other ↔
        modulus (storage.remove leaver.connectionId) ≠ 0 ∧
          (storage.indexToWrite + 1) % modulus (storage.remove leaver.connectionId) =
            (storage.connections.erase leaver).idxOf other) := by
    intro other remains
    rw [← erased] at remains ⊢
    have apart : (storage.remove leaver.connectionId).connections.Nodup := by
      rw [erased]
      exact nodup.erase leaver
    have turns := @selects_in (storage.remove leaver.connectionId) other started apart remains
    exact turns.trans (and_iff_right bounded)
  refine ⟨erased, rfl, selection, ?_⟩
  intro few inside
  have count : (storage.remove leaver.connectionId).connections.length =
      storage.connections.length - 1 := by
    rw [erased, List.length_erase_of_mem registered]
  have least := List.length_pos_of_mem (show connection ∈ storage.connections.erase leaver from
    (List.mem_erase_of_ne (Ne.symm different)).mpr member)
  rw [List.length_erase_of_mem registered] at least
  have rest : modulus (storage.remove leaver.connectionId) = storage.connections.length - 1 := by
    rw [modulus_eq, count]
    unfold Few at few
    omega
  rw [selection connection ((List.mem_erase_of_ne (Ne.symm different)).mpr member), rest,
    and_iff_right (by omega)]
  exact keeps_turn_iff few started inside turn member registered different

def threeJoined : TcpStorage :=
  { connections := [⟨"a", .v4 1, []⟩, ⟨"b", .v4 2, []⟩, ⟨"c", .v4 3, []⟩]
    indexToWrite := 0
    replicationFactor := 1 }

theorem threeJoined_reachable : TcpStorage.Reachable 1 threeJoined :=
  ((TcpStorage.Reachable.new.insert "a" (.v4 1)).insert "b" (.v4 2)).insert "c" (.v4 3)

theorem threeJoined_selects : Selects threeJoined ⟨"b", .v4 2, []⟩ := ⟨_, _, rfl, rfl⟩

theorem leaver_takes_turn :
    TcpStorage.Reachable 1 threeJoined ∧
      (threeJoined.connections.map ConnectionData.connectionId).Nodup ∧
      Selects threeJoined ⟨"b", .v4 2, []⟩ ∧ ⟨"a", .v4 1, []⟩ ∈ threeJoined.connections ∧
      (⟨"a", .v4 1, []⟩ : ConnectionData) ≠ ⟨"b", .v4 2, []⟩ ∧
      ¬Selects (threeJoined.remove "a") ⟨"b", .v4 2, []⟩ ∧
      Selects (threeJoined.remove "a") ⟨"c", .v4 3, []⟩ := by
  refine ⟨threeJoined_reachable, by decide, threeJoined_selects, by decide, by decide, ?_,
    ⟨_, _, rfl, rfl⟩⟩
  rintro ⟨address, next, incremented, found⟩
  obtain ⟨_, rfl⟩ := Prod.mk.inj (Option.some.inj incremented)
  exact absurd found (by decide)

theorem remove_rotation_threeJoined :
    Selects (threeJoined.remove "c") ⟨"b", .v4 2, []⟩ ↔
      threeJoined.connections.length = 2 ∨
        threeJoined.indexToWrite + 1 < threeJoined.connections.length ∧
          threeJoined.connections.idxOf ⟨"b", .v4 2, []⟩ <
            threeJoined.connections.idxOf ⟨"c", .v4 3, []⟩ :=
  (@remove_rotation 1 threeJoined threeJoined_reachable (by decide) ⟨"b", .v4 2, []⟩
    ⟨"c", .v4 3, []⟩ threeJoined_selects (by decide) (by decide)).2.2.2
    (by unfold Few; decide) (by decide)

end DistributedFileSystem.Master
