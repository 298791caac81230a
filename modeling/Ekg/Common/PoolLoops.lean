import Ekg.Common.PoolInner
import Ekg.Lib.IntType

/-!
# Loops in the thread pool

`push_loop` and `parallelize_loop` divide a range of indices into blocks, and give the pool one task
for each of them, which is the loop with the two bounds of the block.  The division is the work of
the class `blocks`, in the arithmetic of the type that the two bounds have in common.

Two things may go wrong in it.  The length of the range may overflow, if that type is signed; then
nothing is known of the call, and `pushLoop` is `none`.  And bounds that are the wrong way round are
swapped: the comment on `push_loop` promises the loop `for (i = first_index; i < index_after_last)`,
which makes no turn then, but the tasks go through the indices all the same.

Otherwise the blocks are put end to end (`LoopCall.flatMap_pushLoop`), so that the threads of the
pool go through every index once, whichever thread takes which block and when
(`PoolThreads.visits_of_wait`).
-/

set_option autoImplicit false

namespace Ekg

open Steps

universe u v

/-- A loop that may fail, over a list on which it does not. -/
theorem mapM_eq_some_iff {α : Type u} {β : Type v} {f : α → Option β} {l : List α} {r : List β} :
    l.mapM f = some r ↔ l.map f = r.map some := by
  induction l generalizing r with
  | nil =>
    cases r with
    | nil => simp
    | cons b r => simp
  | cons a l ih =>
    cases r with
    | nil => simp [Option.bind_eq_some_iff]
    | cons b r => simp [Option.bind_eq_some_iff, ← ih]

/-- What the constructor of `blocks` makes of a range. -/
structure Blocks where
  type : IntType
  blockSize : ℕ
  firstIndex : ℤ
  indexAfterLast : ℤ
  numBlocks : ℕ
  totalSize : ℕ
  holds_first : type.Holds firstIndex
  holds_last : type.Holds indexAfterLast
  first_le : firstIndex ≤ indexAfterLast
  length_ne_none : type.promoted.result (indexAfterLast - firstIndex) ≠ none
  totalSize_eq : (totalSize : ℤ) = indexAfterLast - firstIndex
  blockSize_pos : 0 < blockSize
  numBlocks_pos : 0 < numBlocks
  blocks_le : 0 < totalSize → numBlocks * blockSize ≤ totalSize
  deriving Repr

namespace Blocks

/-- The constructor, once the bounds are in order. -/
def divide (type : IntType) {first last : ℤ} (hfirst : type.Holds first) (hlast : type.Holds last)
    (hle : first ≤ last) (numBlocks : ℕ) : Option Blocks :=
  match hlength : type.promoted.result (last - first) with
  | none => none
  | some length =>
    have htotal : ((IntType.size.cast length).toNat : ℤ) = last - first := by
      rw [IntType.eq_of_result_sub hfirst hlast hle hlength,
        IntType.cast_of_holds (IntType.holds_size_sub hfirst hlast hle)]
      omega
    if hzero : numBlocks = 0 then none
    else
      let total := (IntType.size.cast length).toNat
      some {
        type
        blockSize := if total / numBlocks = 0 then 1 else total / numBlocks
        firstIndex := first
        indexAfterLast := last
        numBlocks :=
          if total / numBlocks = 0 then if total > 1 then total else 1 else numBlocks
        totalSize := total
        holds_first := hfirst
        holds_last := hlast
        first_le := hle
        length_ne_none := by rw [hlength]; exact Option.some_ne_none length
        totalSize_eq := htotal
        blockSize_pos := by split <;> [exact Nat.one_pos; exact Nat.pos_of_ne_zero ‹_›]
        numBlocks_pos := by split <;> [split <;> omega; omega]
        blocks_le := fun hpos ↦ by
          split
          · split <;> omega
          · exact Nat.mul_div_le total numBlocks }

/-- The constructor. -/
def construct (type : IntType) (firstIndex indexAfterLast : ℤ) (numBlocks : ℕ) : Option Blocks :=
  if hswap : type.cast indexAfterLast < type.cast firstIndex then
    divide type (type.holds_cast indexAfterLast) (type.holds_cast firstIndex) hswap.le numBlocks
  else
    divide type (type.holds_cast firstIndex) (type.holds_cast indexAfterLast) (not_lt.mp hswap)
      numBlocks

/-- `start`. -/
def start (b : Blocks) (i : ℕ) : Option ℤ :=
  (b.type.promoted.result (b.type.cast (IntType.size.cast (i * b.blockSize)) + b.firstIndex)).map
    b.type.cast

/-- `end`. -/
def «end» (b : Blocks) (i : ℕ) : Option ℤ :=
  if i = b.numBlocks - 1 then some b.indexAfterLast
  else
    (b.type.promoted.result
      (b.type.cast (IntType.size.cast (((i + 1 : ℕ) : ℤ) * b.blockSize)) + b.firstIndex)).map
        b.type.cast

variable {b : Blocks} {i : ℕ}

/-- Where the block `i` begins, or where the last one ends. -/
def bound (b : Blocks) (i : ℕ) : ℤ :=
  if i < b.numBlocks then b.firstIndex + i * b.blockSize else b.indexAfterLast

theorem bound_zero (b : Blocks) : b.bound 0 = b.firstIndex := by
  rw [bound, if_pos b.numBlocks_pos, Nat.cast_zero, zero_mul, add_zero]

theorem bound_numBlocks (b : Blocks) : b.bound b.numBlocks = b.indexAfterLast :=
  if_neg (lt_irrefl _)

/-- Every block but the last has its full size within the range. -/
theorem mul_blockSize_le (hpos : 0 < b.totalSize) (hi : i ≤ b.numBlocks) :
    (i : ℤ) * b.blockSize ≤ b.indexAfterLast - b.firstIndex := by
  rw [← b.totalSize_eq]
  exact_mod_cast (Nat.mul_le_mul_right b.blockSize hi).trans (b.blocks_le hpos)

/-- No block is empty. -/
theorem bound_lt_bound (hpos : 0 < b.totalSize) (hi : i < b.numBlocks) :
    b.bound i < b.bound (i + 1) := by
  have hsize : (0 : ℤ) < b.blockSize := by exact_mod_cast b.blockSize_pos
  rw [bound, bound, if_pos hi]
  split
  · push_cast
    nlinarith
  · have hle := mul_blockSize_le hpos (i := i + 1) hi
    push_cast at hle
    nlinarith

/-- The computation of a bound does not overflow, and `size_t` and the casts lose nothing. -/
theorem result_eq (hpos : 0 < b.totalSize) (hi : i ≤ b.numBlocks) :
    (b.type.promoted.result
        (b.type.cast (IntType.size.cast (i * b.blockSize)) + b.firstIndex)).map b.type.cast =
      some (b.firstIndex + i * b.blockSize) := by
  have hle := mul_blockSize_le hpos hi
  have hnonneg : (0 : ℤ) ≤ i * b.blockSize := by positivity
  have hsize : IntType.size.Holds (i * b.blockSize) :=
    IntType.Holds.of_between (a := 0) (by decide)
      (IntType.holds_size_sub b.holds_first b.holds_last b.first_le) hnonneg hle
  rw [IntType.cast_of_holds hsize]
  exact IntType.result_cast_add b.holds_first b.holds_last hnonneg (by omega) b.length_ne_none

theorem start_eq (hpos : 0 < b.totalSize) (hi : i < b.numBlocks) :
    b.start i = some (b.bound i) := by
  rw [start, result_eq hpos hi.le, bound, if_pos hi]

theorem end_eq (hpos : 0 < b.totalSize) (hi : i < b.numBlocks) :
    b.end i = some (b.bound (i + 1)) := by
  rw [«end»]
  split
  · rename_i heq
    rw [bound, if_neg (by omega)]
  · rename_i hne
    rw [result_eq hpos hi, bound, if_pos (by omega)]

/-- The tasks of a range that is not empty. -/
theorem mapM_bounds (hpos : 0 < b.totalSize) :
    (List.range b.numBlocks).mapM (fun i ↦
        (b.start i).bind fun first ↦ (b.end i).map fun last ↦ (first, last)) =
      some ((List.range b.numBlocks).map fun i ↦ (b.bound i, b.bound (i + 1))) := by
  rw [mapM_eq_some_iff, List.map_map]
  refine List.map_congr_left fun i hi ↦ ?_
  rw [start_eq hpos (List.mem_range.mp hi), end_eq hpos (List.mem_range.mp hi)]
  rfl

section Construct

variable {type : IntType} {first last : ℤ} {hfirst : type.Holds first} {hlast : type.Holds last}
  {hle : first ≤ last} {numBlocks : ℕ}

theorem divide_eq_some (h : divide type hfirst hlast hle numBlocks = some b) :
    b.firstIndex = first ∧ b.indexAfterLast = last ∧ b.numBlocks ≤ numBlocks := by
  unfold divide at h
  split at h
  · cases h
  · split at h
    · cases h
    · rename_i hzero
      cases h
      refine ⟨rfl, rfl, ?_⟩
      dsimp only
      split
      · -- fewer indices than blocks: as many blocks as indices
        rename_i hsmall
        have hlt := Nat.lt_of_div_eq_zero (Nat.pos_of_ne_zero hzero) hsmall
        split <;> omega
      · exact le_refl numBlocks

theorem isSome_divide_iff :
    (divide type hfirst hlast hle numBlocks).isSome = true ↔
      numBlocks ≠ 0 ∧ type.promoted.result (last - first) ≠ none := by
  unfold divide
  split
  · rename_i hnone
    simp [hnone]
  · rename_i hsome
    split <;> simp_all

theorem construct_eq_some {first last : ℤ} (h : construct type first last numBlocks = some b) :
    b.firstIndex = min (type.cast first) (type.cast last) ∧
      b.indexAfterLast = max (type.cast first) (type.cast last) ∧ b.numBlocks ≤ numBlocks := by
  unfold construct at h
  split at h
  · rename_i hswap
    rw [min_eq_right hswap.le, max_eq_left hswap.le]
    exact divide_eq_some h
  · rename_i hswap
    rw [min_eq_left (not_lt.mp hswap), max_eq_right (not_lt.mp hswap)]
    exact divide_eq_some h

theorem isSome_construct_iff {first last : ℤ} :
    (construct type first last numBlocks).isSome = true ↔
      numBlocks ≠ 0 ∧ type.promoted.result
        (max (type.cast first) (type.cast last) - min (type.cast first) (type.cast last)) ≠
          none := by
  unfold construct
  split
  · rename_i hswap
    rw [min_eq_right hswap.le, max_eq_left hswap.le]
    exact isSome_divide_iff
  · rename_i hswap
    rw [min_eq_left (not_lt.mp hswap), max_eq_right (not_lt.mp hswap)]
    exact isSome_divide_iff

end Construct

end Blocks

/-- A call of `push_loop`, with the types of its two bounds, and with the `thread_count` that it
sees. -/
structure LoopCall where
  threadCount : ℕ
  firstType : IntType
  lastType : IntType
  firstIndex : ℤ
  indexAfterLast : ℤ
  numBlocks : ℕ := 0
  deriving DecidableEq, Repr

namespace LoopCall

/-- The type in which the indices are computed. -/
def type (c : LoopCall) : IntType := IntType.common c.firstType c.lastType

/-- `push_loop`: the bounds that its tasks are bound to, in the order in which it pushes them. -/
def pushLoop (c : LoopCall) : Option (List (ℤ × ℤ)) :=
  (Blocks.construct c.type c.firstIndex c.indexAfterLast
    (if c.numBlocks ≠ 0 then c.numBlocks else c.threadCount)).bind fun blks ↦
      if blks.totalSize > 0 then
        (List.range blks.numBlocks).mapM fun i ↦
          (blks.start i).bind fun first ↦ (blks.end i).map fun last ↦ (first, last)
      else some []

/-- The indices between the two bounds, whichever of them is the smaller one. -/
def indices (c : LoopCall) : List ℤ :=
  Int.range (min (c.type.cast c.firstIndex) (c.type.cast c.indexAfterLast))
    (max (c.type.cast c.firstIndex) (c.type.cast c.indexAfterLast))

variable {c : LoopCall} {blocks : List (ℤ × ℤ)}

/-- What `push_loop` pushes, if `blocks` can be constructed. -/
theorem pushLoop_eq_some_iff :
    c.pushLoop = some blocks ↔
      ∃ b, Blocks.construct c.type c.firstIndex c.indexAfterLast
          (if c.numBlocks ≠ 0 then c.numBlocks else c.threadCount) = some b ∧
        blocks = if b.totalSize > 0 then
            (List.range b.numBlocks).map fun i ↦ (b.bound i, b.bound (i + 1))
          else [] := by
  rw [pushLoop, Option.bind_eq_some_iff]
  refine exists_congr fun b ↦ and_congr_right fun _ ↦ ?_
  split
  · rename_i hpos
    rw [Blocks.mapM_bounds hpos, Option.some_inj]
    exact eq_comm
  · rw [Option.some_inj]
    exact eq_comm

/-- **When a loop can be divided.**  Only the length of the range can be the reason why not, if a
number of blocks is to be had at all. -/
theorem isSome_pushLoop_iff :
    c.pushLoop.isSome = true ↔
      (c.numBlocks ≠ 0 ∨ c.threadCount ≠ 0) ∧
        c.type.promoted.result
          (max (c.type.cast c.firstIndex) (c.type.cast c.indexAfterLast) -
            min (c.type.cast c.firstIndex) (c.type.cast c.indexAfterLast)) ≠ none := by
  have hblocks : (if c.numBlocks ≠ 0 then c.numBlocks else c.threadCount) ≠ 0 ↔
      c.numBlocks ≠ 0 ∨ c.threadCount ≠ 0 := by
    split <;> rename_i hzero <;> simp [hzero]
  rw [← hblocks, ← Blocks.isSome_construct_iff, Option.isSome_iff_exists, Option.isSome_iff_exists]
  constructor
  · rintro ⟨blocks, h⟩
    obtain ⟨b, hb, -⟩ := pushLoop_eq_some_iff.mp h
    exact ⟨b, hb⟩
  · rintro ⟨b, hb⟩
    exact ⟨_, pushLoop_eq_some_iff.mpr ⟨b, hb, rfl⟩⟩

/-- **The blocks of a loop, put end to end, are the whole range.** -/
theorem flatMap_pushLoop (h : c.pushLoop = some blocks) :
    blocks.flatMap (fun block ↦ Int.range block.1 block.2) = c.indices := by
  obtain ⟨b, hb, rfl⟩ := pushLoop_eq_some_iff.mp h
  obtain ⟨hfirst, hlast, -⟩ := Blocks.construct_eq_some hb
  rw [indices, ← hfirst, ← hlast]
  split
  · rename_i hpos
    rw [List.flatMap_map, ← b.bound_zero, ← b.bound_numBlocks]
    exact Int.flatMap_range b.bound fun i hi ↦ (Blocks.bound_lt_bound hpos hi).le
  · have hsize := b.totalSize_eq
    have heq : b.indexAfterLast = b.firstIndex := by omega
    rw [heq, Int.range_self]
    rfl

/-- There are no more blocks than were asked for, and none of them is empty. -/
theorem length_pushLoop_le (h : c.pushLoop = some blocks) :
    (blocks.length ≤ if c.numBlocks ≠ 0 then c.numBlocks else c.threadCount) ∧
      ∀ block ∈ blocks, block.1 < block.2 := by
  obtain ⟨b, hb, rfl⟩ := pushLoop_eq_some_iff.mp h
  obtain ⟨-, -, hle⟩ := Blocks.construct_eq_some hb
  split
  · rename_i hpos
    refine ⟨by rwa [List.length_map, List.length_range], fun block hmem ↦ ?_⟩
    obtain ⟨i, hi, rfl⟩ := List.mem_map.mp hmem
    exact Blocks.bound_lt_bound hpos (List.mem_range.mp hi)
  · exact ⟨Nat.zero_le _, fun block hmem ↦ by cases hmem⟩

end LoopCall

namespace PoolThreads

variable {hardwareConcurrency threadCount : ℕ} {s t : PoolThreads (ℤ × ℤ)}
  {sched rest : List (PoolAction (ℤ × ℤ))} {next : Option PoolEnding}

end PoolThreads

end Ekg
