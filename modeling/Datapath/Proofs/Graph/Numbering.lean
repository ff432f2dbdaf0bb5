import Datapath.Graph.Construction
import Mathlib.Data.List.Basic

/-!
# Blocks and their buckets

Before any node is made, blocks are numbered in two tables that are filled side by side: one leads
from a block to its bucket, the other from a bucket to its block. Neither table is made from the
other, so that they are inverse to each other is a property of how they are filled.

`Graph.Numbers g n` says that either table has the first `n` blocks, under their positions counted
from one, and nothing else. Recording the next block leads from `n` to `n + 1`
(`Numbers.recordBlock`), so after all have been recorded the tables have the blocks of the kernel
(`numbers_numbered`).
-/

namespace Datapath.Graph

variable {g : Graph} {k : Kernel} {n p : Nat} {b : BlockId}

/-! ## What recording leaves alone -/

/-- Recording blocks fills the two tables, and nothing else is touched. -/
theorem exists_recordBlocks (g : Graph) (blocks : List (BlockId × Nat)) :
    ∃ indices byIndex, g.recordBlocks blocks =
      { g with blockIndices := indices, blocksByIndex := byIndex } := by
  induction blocks generalizing g with
  | nil => exact ⟨_, _, rfl⟩
  | cons entry rest ih => exact ih (g.recordBlock entry.1 entry.2)

/-- Numbering the blocks fills the two tables of an empty graph. -/
theorem exists_numbered (k : Kernel) : ∃ indices byIndex, numbered k =
    { empty k.name with blockIndices := indices, blocksByIndex := byIndex } :=
  exists_recordBlocks _ _

@[simp] theorem nodes_numbered (k : Kernel) : (numbered k).nodes = #[] := by
  obtain ⟨_, _, h⟩ := exists_numbered k
  rw [h]
  rfl

@[simp] theorem registry_numbered (k : Kernel) : (numbered k).registry = .empty := by
  obtain ⟨_, _, h⟩ := exists_numbered k
  rw [h]
  rfl

@[simp] theorem buckets_numbered (k : Kernel) : (numbered k).buckets = .empty := by
  obtain ⟨_, _, h⟩ := exists_numbered k
  rw [h]
  rfl

@[simp] theorem chains_numbered (k : Kernel) : (numbered k).chains = [] := by
  obtain ⟨_, _, h⟩ := exists_numbered k
  rw [h]
  rfl

@[simp] theorem chainWidths_numbered (k : Kernel) : (numbered k).chainWidths = .empty := by
  obtain ⟨_, _, h⟩ := exists_numbered k
  rw [h]
  rfl

@[simp] theorem getElem?_nodes_numbered (k : Kernel) (n : Nat) : (numbered k).nodes[n]? = none := by
  rw [nodes_numbered]
  rfl

@[simp] theorem nodeId?_numbered (k : Kernel) (v : ValueId) : (numbered k).nodeId? v = none := by
  rw [nodeId?, registry_numbered, Table.find?_empty]

/-! ## The two tables -/

/-- Both tables have the first `n` blocks under their positions, counted from one. -/
structure Numbers (g : Graph) (n : Nat) : Prop where
  blockIndex?_eq_some_iff : ∀ {b p}, g.blockIndex? b = some p ↔ p = b.index + 1 ∧ b.index < n
  blockAt?_eq_some_iff : ∀ {b p}, g.blockAt? p = some b ↔ p = b.index + 1 ∧ b.index < n

namespace Numbers

theorem empty (name : String) : (Graph.empty name).Numbers 0 where
  blockIndex?_eq_some_iff := iff_of_false nofun fun h => absurd h.2 (Nat.not_lt_zero _)
  blockAt?_eq_some_iff := iff_of_false nofun fun h => absurd h.2 (Nat.not_lt_zero _)

/-- **The next block** gets the next number, in both tables. -/
theorem recordBlock (h : g.Numbers n) : (g.recordBlock ⟨n⟩ (n + 1)).Numbers (n + 1) where
  blockIndex?_eq_some_iff := by
    intro b p
    show (g.blockIndices.insert _ _).find? b = _ ↔ _
    rw [Table.find?_insert]
    by_cases hb : (⟨n⟩ : BlockId) = b
    · -- the block that is recorded
      subst hb
      rw [if_pos rfl, Option.some_inj]
      exact ⟨fun hp => ⟨hp.symm, Nat.lt_succ_self n⟩, fun hp => hp.1.symm⟩
    · -- a block that was recorded before
      have hne : n ≠ b.index := fun e => hb (BlockId.ext e)
      rw [if_neg hb]
      refine h.blockIndex?_eq_some_iff.trans (and_congr_right fun _ => ?_)
      omega
  blockAt?_eq_some_iff := by
    intro b p
    show (g.blocksByIndex.insert _ _).find? p = _ ↔ _
    rw [Table.find?_insert]
    by_cases hp : n + 1 = p
    · -- the bucket that is recorded
      subst hp
      rw [if_pos rfl, Option.some_inj]
      constructor
      · rintro rfl
        exact ⟨rfl, Nat.lt_succ_self n⟩
      · rintro ⟨hb, -⟩
        exact BlockId.ext (Nat.succ.inj hb)
    · -- a bucket that was recorded before
      rw [if_neg hp]
      refine h.blockAt?_eq_some_iff.trans (and_congr_right fun _ => ?_)
      omega

/-- The blocks are recorded in order, so their positions are what the tables lead to. -/
theorem recordBlocks (name : String) (n : Nat) : ((Graph.empty name).recordBlocks
    (((List.range n).map BlockId.mk).zipIdx 1)).Numbers n := by
  induction n with
  | zero => exact .empty name
  | succ n ih =>
      -- the last block is recorded on top of the others
      rw [List.range_succ, List.map_append, List.zipIdx_append, Graph.recordBlocks,
        List.foldl_append, List.length_map, List.length_range, Nat.add_comm 1 n]
      exact ih.recordBlock

/-- **The tables are inverse to each other.** -/
theorem inverse (h : g.Numbers n) : g.blockIndex? b = some p ↔ g.blockAt? p = some b :=
  h.blockIndex?_eq_some_iff.trans h.blockAt?_eq_some_iff.symm

theorem isSome_blockIndex?_iff (h : g.Numbers n) : (g.blockIndex? b).isSome ↔ b.index < n := by
  simp [Option.isSome_iff_exists, h.blockIndex?_eq_some_iff]

/-- The buckets of blocks are those from the first to the last; the interface bucket has no block.
-/
theorem isSome_blockAt?_iff (h : g.Numbers n) : (g.blockAt? p).isSome ↔ 1 ≤ p ∧ p ≤ n := by
  rw [Option.isSome_iff_exists]
  simp only [h.blockAt?_eq_some_iff]
  constructor
  · rintro ⟨b, rfl, hb⟩
    omega
  · rintro ⟨hpos, hle⟩
    exact ⟨⟨p - 1⟩, (Nat.sub_add_cancel hpos).symm, by show p - 1 < n; omega⟩

/-- What leaves the tables alone leaves the numbers alone. -/
theorem congr {g' : Graph} (h : g.Numbers n) (indices : g'.blockIndices = g.blockIndices)
    (byIndex : g'.blocksByIndex = g.blocksByIndex) : g'.Numbers n where
  blockIndex?_eq_some_iff := by
    intro b p
    rw [blockIndex?, indices]
    exact h.blockIndex?_eq_some_iff
  blockAt?_eq_some_iff := by
    intro b p
    rw [blockAt?, byIndex]
    exact h.blockAt?_eq_some_iff

end Numbers

/-- **The blocks of a kernel are numbered.** -/
theorem numbers_numbered (k : Kernel) : (numbered k).Numbers k.blocks.size :=
  .recordBlocks k.name k.blocks.size

end Datapath.Graph
