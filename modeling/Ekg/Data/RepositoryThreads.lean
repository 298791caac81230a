import Mathlib.Data.Finset.Insert
import Mathlib.Data.Finset.Erase
import Ekg.Data.ChannelRepository
import Ekg.Lib.Mutex

/-!
# The repository as a set

The schema does not say that a triple is stored once.  That it is rests on `insert`, which counts
the rows of the triple and adds one if there are none, and on the storage mutex, which is held from
before the count until after the row is added: `StorageLockedRef::get` locks it, and the lock goes
with the reference.

The threads that use the repository are an instance of `Mutex`.  A call is a critical section, and
`insert` is two steps in it.  The reference is a finite set of triples, to which a call adds one or
from which it takes one or all.  `repository_refines` compares the two.
-/

set_option autoImplicit false

namespace Ekg

open Steps

/-- A call that changes the table. -/
inductive RepositoryCall
  | insert (description : ChannelMonitorType)
  | remove (description : ChannelMonitorType)
  | removeAll
  deriving DecidableEq, Repr

namespace RepositoryCall

/-- The call on the table, executed without interruption. -/
def execute : RepositoryCall → Storage → Storage
  | .insert description => ChannelRepository.insert description
  | .remove description => ChannelRepository.remove description
  | .removeAll => ChannelRepository.removeAll

/-- The call on the reference. -/
def executeSet : RepositoryCall → Finset Triple → Finset Triple
  | .insert description, keys => Insert.insert description.triple keys
  | .remove description, keys => keys.erase description.triple
  | .removeAll, _ => ∅

/-- The call is not about this triple. -/
def spares : RepositoryCall → Triple → Bool
  | .insert description, k => k != description.triple
  | .remove description, k => k != description.triple
  | .removeAll, _ => false

/-- How far a call is. -/
inductive Progress
  | called (call : RepositoryCall)
  | counted (description : ChannelMonitorType) (found : ℕ)
  | returned
  deriving DecidableEq, Repr

/-- The calls as critical sections of `storage_mutex`. -/
def sections : Mutex.Sections Storage RepositoryCall where
  Local := Progress
  enter := .called
  next progress s :=
    match progress with
    | .called (.insert description) => some (.counted description (s.count description), s)
    | .counted description found =>
      some (.returned, if found = 0 then s.insertRow description else s)
    | .called (.remove description) => some (.returned, s.removeRows description)
    | .called .removeAll => some (.returned, s.removeAllRows)
    | .returned => none

/-- The steps of a call, one after the other, are the call. -/
theorem finishes_execute (call : RepositoryCall) (s : Storage) :
    sections.Finishes (sections.enter call) s (call.execute s) := by
  cases call with
  | insert description => exact .step rfl (.step rfl (.done rfl))
  | remove description => exact .step rfl (.done rfl)
  | removeAll => exact .step rfl (.done rfl)

end RepositoryCall

/-- The reference after some calls, made by whatever threads. -/
def referenceSet {ι : Type} (calls : List (ι × RepositoryCall)) : Finset Triple :=
  calls.foldl (fun keys entry ↦ entry.2.executeSet keys) ∅

/-! ## One call -/

namespace Storage

variable {s : Storage} {keys : Finset Triple} {k : Triple} {description : ChannelMonitorType}

/-- The table stores every triple of the set once, and no other. -/
structure Stores (s : Storage) (keys : Finset Triple) : Prop where
  nodup : (s.rows.map ChannelMonitorType.triple).Nodup
  mem_iff : ∀ k, k ∈ s.triples ↔ k ∈ keys

theorem stores_empty : Storage.empty.Stores ∅ :=
  ⟨List.nodup_nil, fun k ↦ by simp⟩

theorem Stores.execute (h : s.Stores keys) (call : RepositoryCall) :
    (call.execute s).Stores (call.executeSet keys) := by
  cases call with
  | insert description =>
    refine ⟨ChannelRepository.nodup_insert h.nodup, fun k ↦ ?_⟩
    rw [RepositoryCall.execute, ChannelRepository.mem_triples_insert, h.mem_iff,
      RepositoryCall.executeSet, Finset.mem_insert]
  | remove description =>
    refine ⟨h.nodup.sublist (List.filter_sublist.map _), fun k ↦ ?_⟩
    rw [RepositoryCall.execute, ChannelRepository.mem_triples_remove, h.mem_iff,
      RepositoryCall.executeSet, Finset.mem_erase]
  | removeAll =>
    refine ⟨List.nodup_nil, fun k ↦ ?_⟩
    simp [RepositoryCall.execute, RepositoryCall.executeSet, ChannelRepository.removeAll,
      removeAllRows, triples]

/-- **A call leaves the rows of the other triples as they are**, and their order. -/
theorem filter_spares_execute (call : RepositoryCall) (s : Storage) :
    (call.execute s).rows.filter (fun row ↦ call.spares row.triple) =
      s.rows.filter fun row ↦ call.spares row.triple := by
  cases call with
  | insert description =>
    simp only [RepositoryCall.execute, ChannelRepository.insert, RepositoryCall.spares]
    split
    · simp [insertRow, ChannelMonitorType.triple]
    · rfl
  | remove description =>
    simp only [RepositoryCall.execute, ChannelRepository.remove, removeRows, List.filter_filter,
      RepositoryCall.spares]
    refine List.filter_congr fun row _ ↦ ?_
    by_cases htriple : row.triple = description.triple <;> simp [selects, htriple]
  | removeAll =>
    simp only [RepositoryCall.spares, List.filter_false]

end Storage

/-! ## The queries -/

/-- The three queries answer for the same set. -/
structure QueriesAgree (order : QueryOrder) (s : Storage) (keys : Finset Triple) : Prop where
  isPresent : ∀ d, ChannelRepository.isPresent d s = true ↔ d.triple ∈ keys
  getChannelMonitor : ∀ d,
    (ChannelRepository.getChannelMonitor order d s).isSome = true ↔ d.triple ∈ keys
  carries : ∀ d row, ChannelRepository.getChannelMonitor order d s = some row →
    row ∈ s.rows ∧ row.triple = d.triple
  distinct : (ChannelRepository.getDistinctByNameProtocol order s).Nodup
  mem_distinct : ∀ name protocol,
    (name, protocol) ∈ ChannelRepository.getDistinctByNameProtocol order s ↔
      ∃ destination, (name, protocol, destination) ∈ keys

namespace ChannelRepository

variable {order : QueryOrder} {s : Storage} {keys : Finset Triple}

/-- The queries agree with the set that the table stores. -/
theorem queriesAgree (h : s.Stores keys) : QueriesAgree order s keys where
  isPresent d := isPresent_iff.trans (h.mem_iff _)
  getChannelMonitor d := isSome_getChannelMonitor.trans (h.mem_iff _)
  carries _ _ := mem_of_getChannelMonitor
  distinct := nodup_getDistinctByNameProtocol
  mem_distinct name protocol := by
    rw [mem_getDistinctByNameProtocol]
    constructor
    · rintro ⟨row, hrow, hpair⟩
      obtain ⟨rfl, rfl⟩ := Prod.mk.inj hpair
      exact ⟨row.channelDestination, (h.mem_iff _).mp ⟨row, hrow, rfl⟩⟩
    · rintro ⟨destination, hmem⟩
      obtain ⟨row, hrow, htriple⟩ := (h.mem_iff _).mpr hmem
      refine ⟨row, hrow, ?_⟩
      rw [ChannelMonitorType.triple, Prod.mk.injEq, Prod.mk.injEq] at htriple
      rw [ChannelMonitorType.nameProtocol, htriple.1, htriple.2.1]

end ChannelRepository

/-! ## Any number of threads -/

/-- The threads that use the repository, each with the calls it makes. -/
abbrev RepositoryThreads (ι : Type) := Mutex.State ι RepositoryCall.sections

namespace RepositoryThreads

/-- Nobody has made a call yet, and the table is empty. -/
def start {ι : Type} (programs : ι → List RepositoryCall) : RepositoryThreads ι :=
  Mutex.State.start programs Storage.empty

/-- The table after some calls, made by whatever threads. -/
def storageAfter {ι : Type} (calls : List (ι × RepositoryCall)) : Storage :=
  Mutex.State.executed RepositoryCall.execute .empty calls

variable {ι : Type} [DecidableEq ι] {programs : ι → List RepositoryCall} {sched : List ι}
  {σ : RepositoryThreads ι}

omit [DecidableEq ι] in
theorem stores_storageAfter (calls : List (ι × RepositoryCall)) :
    (storageAfter calls).Stores (referenceSet calls) := by
  induction calls using List.reverseRecOn with
  | nil => exact Storage.stores_empty
  | append_singleton calls entry ih =>
    rw [storageAfter, Mutex.State.executed_concat, referenceSet, List.foldl_append]
    exact ih.execute entry.2

/-- The calls are atomic: between two calls, the table is the one of the calls made so far. -/
theorem storage_run (h : run Mutex.State.step (start programs) sched = some σ)
    (hfree : σ.owner = none) : σ.shared = storageAfter σ.entered :=
  Mutex.State.shared_of_run RepositoryCall.finishes_execute h hfree

/-- Every sequence of calls is the order of some run. -/
theorem exists_run_of_calls (calls : List (ι × RepositoryCall)) :
    ∃ sched σ, run Mutex.State.step (start (Mutex.State.programOf calls)) sched = some σ ∧
      σ.owner = none ∧ σ.entered = calls :=
  Mutex.State.exists_run_of_calls RepositoryCall.finishes_execute calls rfl fun _ ↦ rfl

/-- **The repository refines a finite set.**  After any calls of any threads, in whatever order
they got the storage mutex, the table stores the triples of the reference, each once and under an
id of its own, the queries answer for the reference, and the call that comes next leaves the rows
of the other triples alone. -/
theorem repository_refines (h : run Mutex.State.step (start programs) sched = some σ)
    (hfree : σ.owner = none) :
    (∀ i, σ.enteredBy i <+: programs i) ∧
    (σ.shared.rows.map ChannelMonitorType.triple).Nodup ∧
    (σ.shared.rows.map ChannelMonitorType.id).Nodup ∧
    (∀ k, k ∈ σ.shared.triples ↔ k ∈ referenceSet σ.entered) ∧
    (∀ order, QueriesAgree order σ.shared (referenceSet σ.entered)) ∧
    ∀ sched' τ i call, run Mutex.State.step σ sched' = some τ → τ.owner = none →
      τ.entered = σ.entered ++ [(i, call)] →
      τ.shared.rows.filter (fun row ↦ call.spares row.triple) =
        σ.shared.rows.filter fun row ↦ call.spares row.triple := by
  have hstorage := storage_run h hfree
  have hstores : σ.shared.Stores (referenceSet σ.entered) :=
    hstorage ▸ stores_storageAfter σ.entered
  refine ⟨Mutex.State.program_of_run h, hstores.nodup, σ.shared.id_nodup, hstores.mem_iff,
    fun order ↦ ChannelRepository.queriesAgree hstores, ?_⟩
  intro sched' τ i call hτ hfree' hentered
  have hstorage' : τ.shared = call.execute σ.shared := by
    rw [storage_run ((run_append_of_eq_some h).trans hτ) hfree', hentered, storageAfter,
      Mutex.State.executed_concat, ← storageAfter, ← hstorage]
  rw [hstorage']
  exact Storage.filter_spares_execute call σ.shared

/-- Two threads that insert the same triple. -/
def insertTwice (_ : Bool) : List RepositoryCall := [.insert ⟨-1, "ramp", "pva", "out"⟩]

/-- The row is there once when both are through. -/
theorem repository_refines_insertTwice :
    ∃ σ, run Mutex.State.step (start insertTwice)
        [false, false, false, false, true, true, true, true] = some σ ∧
      σ.shared.rows = [⟨1, "ramp", "pva", "out"⟩] ∧
      (σ.shared.rows.map ChannelMonitorType.triple).Nodup ∧
      ∀ k, k ∈ σ.shared.triples ↔ k ∈ referenceSet σ.entered := by
  have hrun : ∃ σ, run Mutex.State.step (start insertTwice)
      [false, false, false, false, true, true, true, true] = some σ ∧ σ.owner = none ∧
      σ.shared.rows = [⟨1, "ramp", "pva", "out"⟩] := ⟨_, rfl, rfl, by decide⟩
  obtain ⟨σ, h, hfree, hrows⟩ := hrun
  obtain ⟨-, hnodup, -, hmem, -, -⟩ := repository_refines h hfree
  exact ⟨σ, h, hrows, hnodup, hmem⟩

end RepositoryThreads

end Ekg
