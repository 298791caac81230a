import Mathlib.Data.Int.Notation
import Mathlib.Data.List.Dedup
import Mathlib.Data.List.Nodup
import Mathlib.Data.Set.Basic

/-!
# The channel repository

The configuration is one SQLite table, `channel_monitor`, with an autoincrement primary key.  The
table is a list of rows together with the largest id it ever gave out; that no id is given out
twice is part of the type, as it is part of the schema.

`ChannelRepository` selects rows by exact equality of name, protocol and destination.  Every call
holds the storage mutex, so a call is one function on the table.
-/

set_option autoImplicit false

namespace Ekg

universe u

/-- `ChannelMonitorType`: a row of the table. -/
structure ChannelMonitorType where
  id : ℤ := -1
  channelName : String
  channelProtocol : String
  channelDestination : String
  deriving DecidableEq, Repr

/-- The columns that the repository selects by. -/
abbrev Triple := String × String × String

/-- The triple of a row. -/
def ChannelMonitorType.triple (row : ChannelMonitorType) : Triple :=
  (row.channelName, row.channelProtocol, row.channelDestination)

/-- The columns that `getDistinctByNameProtocol` selects. -/
def ChannelMonitorType.nameProtocol (row : ChannelMonitorType) : String × String :=
  (row.channelName, row.channelProtocol)

/-- What SQLite leaves open about the result of a query that does not say `ORDER BY`. -/
structure QueryOrder where
  /-- The order in which selected rows are returned. -/
  rows : List ChannelMonitorType → List ChannelMonitorType
  rows_perm : ∀ l, (rows l).Perm l
  /-- The order in which the pairs of a `SELECT DISTINCT` are returned. -/
  pairs : List (String × String) → List (String × String)
  pairs_perm : ∀ l, (pairs l).Perm l

/-- Rows by increasing id, pairs by their last row. -/
def QueryOrder.byId : QueryOrder := ⟨id, fun _ ↦ .refl _, id, fun _ ↦ .refl _⟩

/-- The `channel_monitor` table. -/
structure Storage where
  /-- The rows, oldest first. -/
  rows : List ChannelMonitorType
  /-- The largest id given out so far. -/
  lastId : ℕ
  /-- Ids were given out by the table. -/
  id_le : ∀ row ∈ rows, row.id ≤ lastId
  /-- `id` is a primary key. -/
  id_nodup : (rows.map ChannelMonitorType.id).Nodup

namespace Storage

/-- A table without rows. -/
def empty : Storage where
  rows := []
  lastId := 0
  id_le := nofun
  id_nodup := List.nodup_nil

/-- The `WHERE` clause of the repository. -/
def selects (description row : ChannelMonitorType) : Bool := row.triple = description.triple

/-- `storage->count<ChannelMonitorType>(where(...))`. -/
def count (description : ChannelMonitorType) (s : Storage) : ℕ :=
  s.rows.countP (selects description)

/-- `storage->insert(description)`: a new row under a fresh id. -/
def insertRow (description : ChannelMonitorType) (s : Storage) : Storage where
  rows := s.rows ++ [{ description with id := s.lastId + 1 }]
  lastId := s.lastId + 1
  id_le := by
    intro row hrow
    rcases List.mem_append.mp hrow with hold | hnew
    · have := s.id_le row hold
      omega
    · rw [List.mem_singleton.mp hnew]
      simp
  id_nodup := by
    rw [List.map_append, List.map_singleton, List.nodup_append]
    refine ⟨s.id_nodup, List.nodup_singleton _, ?_⟩
    intro a ha b hb hab
    obtain ⟨row, hrow, rfl⟩ := List.mem_map.mp ha
    have hle := s.id_le row hrow
    have hb' : b = (s.lastId : ℤ) + 1 := List.mem_singleton.mp hb
    omega

/-- `storage->remove_all<ChannelMonitorType>(where(...))`. -/
def removeRows (description : ChannelMonitorType) (s : Storage) : Storage where
  rows := s.rows.filter fun row ↦ !selects description row
  lastId := s.lastId
  id_le := fun row hrow ↦ s.id_le row (List.mem_of_mem_filter hrow)
  id_nodup := s.id_nodup.sublist (List.filter_sublist.map _)

/-- `storage->remove_all<ChannelMonitorType>()`: the ids that were given out stay given out. -/
def removeAllRows (s : Storage) : Storage where
  rows := []
  lastId := s.lastId
  id_le := nofun
  id_nodup := List.nodup_nil

/-- The set of stored triples. -/
def triples (s : Storage) : Set Triple := {k | ∃ row ∈ s.rows, row.triple = k}

end Storage

namespace ChannelRepository

/-- `ChannelRepository::insert`. -/
def insert (description : ChannelMonitorType) (s : Storage) : Storage :=
  if s.count description = 0 then s.insertRow description else s

/-- `ChannelRepository::remove`. -/
def remove (description : ChannelMonitorType) (s : Storage) : Storage := s.removeRows description

/-- `ChannelRepository::removeAll`. -/
def removeAll (s : Storage) : Storage := s.removeAllRows

/-- `ChannelRepository::isPresent`. -/
def isPresent (newChannel : ChannelMonitorType) (s : Storage) : Bool := s.count newChannel != 0

/-- `ChannelRepository::getChannelMonitor`: the first of the rows that `get_all_pointer` returns. -/
def getChannelMonitor (order : QueryOrder) (description : ChannelMonitorType) (s : Storage) :
    Option ChannelMonitorType :=
  match order.rows (s.rows.filter (Storage.selects description)) with
  | [] => none
  | row :: _ => some row

/-- `ChannelRepository::getDistinctByNameProtocol`. -/
def getDistinctByNameProtocol (order : QueryOrder) (s : Storage) : List (String × String) :=
  order.pairs (s.rows.map ChannelMonitorType.nameProtocol).dedup

variable {σ : Type u}

/-- `ChannelRepository::processAllChannelMonitor`, where `handler` works on a state of its own.
The index is a `uint32_t`, and the protocol is not used. -/
def processAllChannelMonitor (order : QueryOrder) (channelName _channelProtocol : String)
    (handler : UInt32 → ChannelMonitorType → σ → σ) (s : Storage) (st : σ) : σ :=
  ((order.rows (s.rows.filter fun row ↦ row.channelName = channelName)).foldl
    (fun r row ↦ (r.1 + 1, handler r.1 row r.2)) ((0 : UInt32), st)).2

end ChannelRepository

variable {s : Storage} {description : ChannelMonitorType} {k : Triple}

@[simp] theorem Storage.triples_empty : Storage.empty.triples = ∅ := by
  simp [Storage.triples, Storage.empty]

theorem Storage.count_eq_zero : s.count description = 0 ↔ description.triple ∉ s.triples := by
  simp [Storage.count, Storage.selects, Storage.triples, List.countP_eq_zero]

theorem Storage.mem_triples : k ∈ s.triples ↔ k ∈ s.rows.map ChannelMonitorType.triple := by
  simp [triples]

theorem Storage.mem_triples_insertRow :
    k ∈ (s.insertRow description).triples ↔ k = description.triple ∨ k ∈ s.triples := by
  simp [Storage.triples, Storage.insertRow, ChannelMonitorType.triple, or_and_right, exists_or,
    or_comm, eq_comm]

theorem ChannelRepository.mem_triples_insert :
    k ∈ (insert description s).triples ↔ k = description.triple ∨ k ∈ s.triples := by
  rw [insert]
  split
  · exact Storage.mem_triples_insertRow
  · rename_i h
    rw [Storage.count_eq_zero, not_not] at h
    exact ⟨Or.inr, by rintro (rfl | hk); exacts [h, hk]⟩

/-- A triple is inserted once: the row that is added is the first with its triple. -/
theorem ChannelRepository.nodup_insert (h : (s.rows.map ChannelMonitorType.triple).Nodup) :
    ((insert description s).rows.map ChannelMonitorType.triple).Nodup := by
  rw [insert]
  split
  · rename_i hcount
    rw [Storage.insertRow, List.map_append, List.map_singleton, List.nodup_append]
    refine ⟨h, List.nodup_singleton _, ?_⟩
    rintro a ha b hb rfl
    refine Storage.count_eq_zero.mp hcount (Storage.mem_triples.mpr ?_)
    rwa [List.mem_singleton.mp hb] at ha
  · exact h

theorem ChannelRepository.mem_triples_remove :
    k ∈ (remove description s).triples ↔ k ≠ description.triple ∧ k ∈ s.triples := by
  simp only [remove, Storage.triples, Storage.removeRows, Storage.selects, Set.mem_ofPred_eq,
    List.mem_filter, Bool.not_eq_true', decide_eq_false_iff_not]
  constructor
  · rintro ⟨row, ⟨hrow, hne⟩, rfl⟩
    exact ⟨hne, row, hrow, rfl⟩
  · rintro ⟨hne, row, hrow, rfl⟩
    exact ⟨row, ⟨hrow, hne⟩, rfl⟩

/-! ## The queries -/

namespace ChannelRepository

variable {order : QueryOrder} {d row : ChannelMonitorType}

theorem isPresent_iff : isPresent d s = true ↔ d.triple ∈ s.triples := by
  rw [isPresent, bne_iff_ne, ne_eq, Storage.count_eq_zero, not_not]

theorem mem_of_getChannelMonitor (h : getChannelMonitor order d s = some row) :
    row ∈ s.rows ∧ row.triple = d.triple := by
  rw [getChannelMonitor] at h
  split at h
  · cases h
  · rename_i first rest hrows
    have hmem : row ∈ order.rows (s.rows.filter (Storage.selects d)) := by
      rw [hrows, ← Option.some_inj.mp h]
      exact List.mem_cons_self
    have hsel := List.mem_filter.mp ((order.rows_perm _).mem_iff.mp hmem)
    exact ⟨hsel.1, by simpa [Storage.selects] using hsel.2⟩

theorem isSome_getChannelMonitor :
    (getChannelMonitor order d s).isSome = true ↔ d.triple ∈ s.triples := by
  constructor
  · intro h
    obtain ⟨row, hrow⟩ := Option.isSome_iff_exists.mp h
    obtain ⟨hmem, htriple⟩ := mem_of_getChannelMonitor hrow
    exact ⟨row, hmem, htriple⟩
  · rintro ⟨row, hmem, htriple⟩
    have hsel : row ∈ order.rows (s.rows.filter (Storage.selects d)) :=
      (order.rows_perm _).mem_iff.mpr
        (List.mem_filter.mpr ⟨hmem, by simpa [Storage.selects] using htriple⟩)
    rw [getChannelMonitor]
    split
    · rename_i hnil
      rw [hnil] at hsel
      cases hsel
    · rfl

theorem nodup_getDistinctByNameProtocol : (getDistinctByNameProtocol order s).Nodup :=
  (order.pairs_perm _).nodup_iff.mpr (List.nodup_dedup _)

theorem mem_getDistinctByNameProtocol {p : String × String} :
    p ∈ getDistinctByNameProtocol order s ↔ ∃ row ∈ s.rows, row.nameProtocol = p := by
  rw [getDistinctByNameProtocol, (order.pairs_perm _).mem_iff, List.mem_dedup, List.mem_map]

end ChannelRepository

end Ekg
