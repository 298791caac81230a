import Mathlib.Data.List.Nodup
import Mathlib.Data.List.Pairwise
import Mathlib.Data.List.Perm.Basic
import Ekg.Data.ChannelRepository

/-!
# Going over the stored configuration

`iterateAllChannelMonitor` asks for the distinct pairs of name and protocol, and then for the rows
of each pair.  The second query takes the protocol as an argument and selects by the name alone, so
a name that is stored under two protocols has its rows visited twice.

The handler may be anything; what it is called with is recorded in a list (`visits`), and the loop
is the fold of the handler over that list (`iterateAllChannelMonitor_eq_foldl`).
`visitsOnce_iff` says for which tables the list is what it should be.  The index is a `uint32_t`,
which is the other part of the condition.
-/

set_option autoImplicit false

namespace Ekg

universe u

variable {σ : Type u}

namespace NodeConfiguration

/-- `NodeConfiguration::iterateAllChannelMonitor`. -/
def iterateAllChannelMonitor (order : QueryOrder)
    (handler : UInt32 → ChannelMonitorType → σ → σ) (s : Storage) (st : σ) : σ :=
  (ChannelRepository.getDistinctByNameProtocol order s).foldl
    (fun st ch ↦ ChannelRepository.processAllChannelMonitor order ch.1 ch.2 handler s st) st

/-- One call of the handler. -/
abbrev Visit := UInt32 × ChannelMonitorType

/-- The calls of the handler, in order. -/
def visits (order : QueryOrder) (s : Storage) : List Visit :=
  iterateAllChannelMonitor order (fun idx row calls ↦ calls ++ [(idx, row)]) s []

/-- Some rows with the index at which they are to be visited. -/
def enumerate (rows : List ChannelMonitorType) : List (ℕ × ChannelMonitorType) :=
  rows.zipIdx.map Prod.swap

/-- Every stored row is visited once, pair by pair, and the rows of a pair are counted from 0. -/
structure VisitsOnce (s : Storage) (calls : List Visit) : Prop where
  once : (calls.map Prod.snd).Perm s.rows
  grouped : ∃ (pairs : List (String × String)) (group : String × String → List ChannelMonitorType),
    pairs.Nodup ∧ (∀ p, p ∈ pairs ↔ ∃ row ∈ s.rows, row.nameProtocol = p) ∧
    (∀ p ∈ pairs, (group p).Perm (s.rows.filter fun row ↦ row.nameProtocol = p)) ∧
    calls.map (Prod.map UInt32.toNat id) = pairs.flatMap fun p ↦ enumerate (group p)

/-- No channel name is stored under two protocols. -/
def OneProtocol (s : Storage) : Prop :=
  ∀ row ∈ s.rows, ∀ other ∈ s.rows, row.channelName = other.channelName →
    row.channelProtocol = other.channelProtocol

/-! ## The calls of the handler -/

/-- What `processAllChannelMonitor` selects for a pair. -/
def selected (order : QueryOrder) (s : Storage) (p : String × String) : List ChannelMonitorType :=
  order.rows (s.rows.filter fun row ↦ row.channelName = p.1)

/-- The calls for some rows, from an index on. -/
def callsFrom (n : ℕ) (rows : List ChannelMonitorType) : List Visit :=
  (rows.zipIdx n).map fun entry ↦ (UInt32.ofNat entry.2, entry.1)

theorem foldl_handler (handler : UInt32 → ChannelMonitorType → σ → σ)
    (rows : List ChannelMonitorType) (n : ℕ) (st : σ) :
    (rows.foldl (fun r row ↦ (r.1 + 1, handler r.1 row r.2)) (UInt32.ofNat n, st)).2 =
      (callsFrom n rows).foldl (fun st call ↦ handler call.1 call.2 st) st := by
  induction rows generalizing n st with
  | nil => rfl
  | cons row rows ih =>
    have hsucc : UInt32.ofNat n + 1 = UInt32.ofNat (n + 1) := (UInt32.ofNat_add n 1).symm
    rw [List.foldl_cons, hsucc, ih (n + 1)]
    rfl

theorem processAllChannelMonitor_eq_foldl (order : QueryOrder) (p : String × String)
    (handler : UInt32 → ChannelMonitorType → σ → σ) (s : Storage) (st : σ) :
    ChannelRepository.processAllChannelMonitor order p.1 p.2 handler s st =
      (callsFrom 0 (selected order s p)).foldl (fun st call ↦ handler call.1 call.2 st) st :=
  foldl_handler handler (selected order s p) 0 st

/-- The calls, pair by pair. -/
def callsOf (order : QueryOrder) (s : Storage) : List Visit :=
  (ChannelRepository.getDistinctByNameProtocol order s).flatMap fun p ↦
    callsFrom 0 (selected order s p)

theorem foldl_callsOf (order : QueryOrder) (handler : UInt32 → ChannelMonitorType → σ → σ)
    (s : Storage) (st : σ) :
    iterateAllChannelMonitor order handler s st =
      (callsOf order s).foldl (fun st call ↦ handler call.1 call.2 st) st := by
  rw [iterateAllChannelMonitor, callsOf, List.foldl_flatMap]
  simp only [processAllChannelMonitor_eq_foldl]

theorem visits_eq (order : QueryOrder) (s : Storage) : visits order s = callsOf order s := by
  rw [visits, foldl_callsOf]
  have hconcat : ∀ calls acc : List Visit,
      calls.foldl (fun st call ↦ st ++ [(call.1, call.2)]) acc = acc ++ calls := by
    intro calls
    induction calls with
    | nil => simp
    | cons call calls ih =>
      intro acc
      rw [List.foldl_cons, ih]
      simp
  exact (hconcat _ _).trans (List.nil_append _)

/-- The loop calls its handler with the recorded calls, whatever the handler does. -/
theorem iterateAllChannelMonitor_eq_foldl (order : QueryOrder)
    (handler : UInt32 → ChannelMonitorType → σ → σ) (s : Storage) (st : σ) :
    iterateAllChannelMonitor order handler s st =
      (visits order s).foldl (fun st call ↦ handler call.1 call.2 st) st := by
  rw [visits_eq, foldl_callsOf]

theorem map_snd_callsFrom (n : ℕ) (rows : List ChannelMonitorType) :
    (callsFrom n rows).map Prod.snd = rows := by
  rw [callsFrom, List.map_map]
  exact List.zipIdx_map_fst n rows

theorem map_snd_visits (order : QueryOrder) (s : Storage) :
    (visits order s).map Prod.snd =
      (ChannelRepository.getDistinctByNameProtocol order s).flatMap (selected order s) := by
  rw [visits_eq, callsOf, List.map_flatMap]
  simp only [map_snd_callsFrom]

/-! ## Which rows a pair gets -/

section Selected

variable {order : QueryOrder} {s : Storage} {p : String × String} {row : ChannelMonitorType}

theorem nodup_rows (s : Storage) : s.rows.Nodup := .of_map _ s.id_nodup

theorem mem_selected : row ∈ selected order s p ↔ row ∈ s.rows ∧ row.channelName = p.1 := by
  rw [selected, (order.rows_perm _).mem_iff, List.mem_filter, decide_eq_true_eq]

theorem nodup_selected : (selected order s p).Nodup :=
  (order.rows_perm _).nodup_iff.mpr ((nodup_rows s).filter _)

theorem length_selected :
    (selected order s p).length = s.rows.countP fun row ↦ row.channelName = p.1 := by
  rw [selected, (order.rows_perm _).length_eq, List.countP_eq_length_filter]

/-- If a name has one protocol, selecting by the name is selecting by both. -/
theorem selected_perm (h : OneProtocol s)
    (hp : p ∈ ChannelRepository.getDistinctByNameProtocol order s) :
    (selected order s p).Perm (s.rows.filter fun row ↦ row.nameProtocol = p) := by
  obtain ⟨other, hother, rfl⟩ := ChannelRepository.mem_getDistinctByNameProtocol.mp hp
  refine (order.rows_perm _).trans (List.Perm.of_eq (List.filter_congr fun row hrow ↦ ?_))
  rw [decide_eq_decide, ChannelMonitorType.nameProtocol, ChannelMonitorType.nameProtocol,
    Prod.mk.injEq]
  exact ⟨fun hname ↦ ⟨hname, h row hrow other hother hname⟩, And.left⟩

end Selected

/-! ## When every row is visited once -/

section VisitsOnce

variable {order : QueryOrder} {s : Storage}

/-- A name with two protocols has its rows in two groups. -/
theorem VisitsOnce.oneProtocol (h : VisitsOnce s (visits order s)) : OneProtocol s := by
  intro row hrow other hother hname
  by_contra hne
  have hpairs : row.nameProtocol ≠ other.nameProtocol := fun heq ↦ hne (Prod.mk.inj heq).2
  have hnodup := h.once.nodup_iff.mpr (nodup_rows s)
  rw [map_snd_visits, List.nodup_flatMap] at hnodup
  have : Std.Symm (Function.onFun List.Disjoint (selected order s)) := ⟨fun _ _ hd ↦ hd.symm⟩
  have hdisjoint := hnodup.2.forall
    (ChannelRepository.mem_getDistinctByNameProtocol.mpr ⟨row, hrow, rfl⟩)
    (ChannelRepository.mem_getDistinctByNameProtocol.mpr ⟨other, hother, rfl⟩) hpairs
  exact hdisjoint (mem_selected.mpr ⟨hrow, rfl⟩) (mem_selected.mpr ⟨hrow, hname⟩)

theorem mem_visits {p : String × String} {i : ℕ} {row : ChannelMonitorType}
    (hp : p ∈ ChannelRepository.getDistinctByNameProtocol order s)
    (hrow : (selected order s p)[i]? = some row) : (UInt32.ofNat i, row) ∈ visits order s := by
  rw [visits_eq, callsOf, List.mem_flatMap]
  exact ⟨p, hp, List.mem_map.mpr ⟨(row, i), List.mem_zipIdx_iff_getElem?.mpr hrow, rfl⟩⟩

/-- In a list of visits as it should be, the index of a row is its place among the rows of its
pair. -/
theorem VisitsOnce.exists_group {calls : List Visit} (h : VisitsOnce s calls) :
    ∃ group : String × String → List ChannelMonitorType, ∀ idx row, (idx, row) ∈ calls →
      (group row.nameProtocol)[idx.toNat]? = some row := by
  obtain ⟨pairs, group, -, -, hperm, hcalls⟩ := h.grouped
  refine ⟨group, fun idx row hmem ↦ ?_⟩
  have hmem' := List.mem_map_of_mem (f := Prod.map UInt32.toNat id) hmem
  rw [hcalls, List.mem_flatMap] at hmem'
  obtain ⟨p, hp, hentry⟩ := hmem'
  obtain ⟨entry, hentry, hswap⟩ := List.mem_map.mp hentry
  obtain rfl : entry = (row, idx.toNat) := Prod.swap_inj.mp hswap
  have hget := List.mem_zipIdx_iff_getElem?.mp hentry
  have hrow := (hperm p hp).mem_iff.mp (List.mem_of_getElem? hget)
  rw [List.mem_filter, decide_eq_true_eq] at hrow
  rw [hrow.2]
  exact hget

/-- The index comes back to 0 after 2^32 rows. -/
theorem VisitsOnce.countP_le (h : VisitsOnce s (visits order s)) (name : String) :
    (s.rows.countP fun row ↦ row.channelName = name) ≤ UInt32.size := by
  by_contra hlt
  rw [Nat.not_le] at hlt
  obtain ⟨other, hother, hname⟩ := List.countP_pos_iff.mp (Nat.zero_lt_of_lt hlt)
  rw [decide_eq_true_eq] at hname
  subst hname
  have hp : other.nameProtocol ∈ ChannelRepository.getDistinctByNameProtocol order s :=
    ChannelRepository.mem_getDistinctByNameProtocol.mpr ⟨other, hother, rfl⟩
  have hlen : UInt32.size < (selected order s other.nameProtocol).length := by
    rw [length_selected]
    exact hlt
  have hfirst := List.getElem?_eq_getElem (Nat.zero_lt_of_lt hlen)
  have hlast := List.getElem?_eq_getElem hlen
  obtain ⟨group, hgroup⟩ := h.exists_group
  have hgroup₀ := hgroup _ _ (mem_visits hp hfirst)
  have hgroup₁ := hgroup _ _ (mem_visits hp hlast)
  have hmem₀ := mem_selected.mp (List.mem_of_getElem? hfirst)
  have hmem₁ := mem_selected.mp (List.mem_of_getElem? hlast)
  -- the two rows are of one pair, and were visited under one index
  have hname := hmem₀.2.trans hmem₁.2.symm
  rw [ChannelMonitorType.nameProtocol, hname, h.oneProtocol _ hmem₀.1 _ hmem₁.1 hname] at hgroup₀
  have heq := Option.some_inj.mp (hgroup₀.symm.trans hgroup₁)
  exact absurd ((nodup_selected.getElem_inj_iff).mp heq) (by decide)

theorem visitsOnce_of_oneProtocol (h : OneProtocol s)
    (hcount : ∀ name, (s.rows.countP fun row ↦ row.channelName = name) ≤ UInt32.size) :
    VisitsOnce s (visits order s) := by
  have hpairs : ∀ p, p ∈ ChannelRepository.getDistinctByNameProtocol order s ↔
      ∃ row ∈ s.rows, row.nameProtocol = p := fun p ↦
    ChannelRepository.mem_getDistinctByNameProtocol
  refine ⟨?_, _, selected order s, ChannelRepository.nodup_getDistinctByNameProtocol, hpairs,
    fun p hp ↦ selected_perm h hp, ?_⟩
  · rw [map_snd_visits, List.perm_ext_iff_of_nodup _ (nodup_rows s)]
    · intro row
      rw [List.mem_flatMap]
      constructor
      · rintro ⟨p, -, hrow⟩
        exact (mem_selected.mp hrow).1
      · intro hrow
        exact ⟨row.nameProtocol, (hpairs _).mpr ⟨row, hrow, rfl⟩, mem_selected.mpr ⟨hrow, rfl⟩⟩
    · refine List.nodup_flatMap.mpr ⟨fun p _ ↦ nodup_selected, ?_⟩
      -- a row that two pairs select is of both of them
      refine ChannelRepository.nodup_getDistinctByNameProtocol.pairwise_of_forall_ne ?_
      intro p hp q hq hne row hrowp hrowq
      have hrowp := (List.mem_filter.mp ((selected_perm h hp).mem_iff.mp hrowp)).2
      have hrowq := (List.mem_filter.mp ((selected_perm h hq).mem_iff.mp hrowq)).2
      rw [decide_eq_true_eq] at hrowp hrowq
      exact hne (hrowp.symm.trans hrowq)
  · rw [visits_eq, callsOf, List.map_flatMap]
    refine List.flatMap_congr fun p _ ↦ ?_
    rw [callsFrom, enumerate, List.map_map]
    refine List.map_congr_left fun entry hentry ↦ ?_
    have hlt : entry.2 < (selected order s p).length :=
      (List.getElem?_eq_some_iff.mp (List.mem_zipIdx_iff_getElem?.mp hentry)).1
    have hle : (selected order s p).length ≤ UInt32.size := by
      rw [length_selected]
      exact hcount p.1
    exact Prod.ext (UInt32.toNat_ofNat_of_lt (Nat.lt_of_lt_of_le hlt hle)) rfl

end VisitsOnce

/-- **Every stored row is visited once, and counted within its pair, exactly for the tables in
which a channel name has one protocol and no more than 2^32 rows.** -/
theorem visitsOnce_iff (order : QueryOrder) (s : Storage) :
    VisitsOnce s (visits order s) ↔ OneProtocol s ∧
      ∀ name, (s.rows.countP fun row ↦ row.channelName = name) ≤ UInt32.size :=
  ⟨fun h ↦ ⟨h.oneProtocol, h.countP_le⟩, fun h ↦ visitsOnce_of_oneProtocol h.1 h.2⟩

/-- One channel, stored under both protocols. -/
def rampTwice : Storage :=
  ChannelRepository.insert ⟨-1, "ramp", "pva", "out"⟩
    (ChannelRepository.insert ⟨-1, "ramp", "ca", "out"⟩ .empty)

/-- Two rows make four calls. -/
theorem not_visitsOnce_rampTwice : ¬ VisitsOnce rampTwice (visits .byId rampTwice) := by
  intro h
  exact absurd h.once.length_eq (by decide)

end NodeConfiguration

end Ekg
