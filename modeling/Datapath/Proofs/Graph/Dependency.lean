import Datapath.Analysis
import Datapath.Proofs.Address.Roots
import Datapath.Proofs.Graph.Sweep
import Mathlib.Logic.Relation

/-!
# Which dependencies a graph keeps

A node of the graph *reaches* a value if use edges lead from it to that value's node. What it
reaches can be said in terms of the kernel alone (`Kernel.Draws`):

* arithmetic and comparisons that feed no address draw on their operands, seen through one cast;
* loads and stores draw on the roots of their address;
* stores draw on the stored value, seen through one cast.

What depends on a value in another way does not reach it. Operands that feed an address have no use
edges, even where data is computed from them as well, and nor have pointers, or what stands under a
second cast.

Between the two stand the *sources* of an instruction (`Kernel.TakesFrom`): an edge leads to each of
them, and they are what the instruction draws on in one step.
-/

namespace Datapath

theorem Instruction.isAccess_of_stored? {i : Instruction} {v : ValueId} (h : i.stored? = some v) :
    i.opcode.isAccess = true := by
  unfold stored? at h
  split at h
  · next hop => exact Opcode.isAccess_iff.mpr (.inr hop)
  · cases h

/-! ## Dependencies -/

namespace Kernel

/-- A chain of operands leads from `v` to `b` through arithmetic, comparisons, casts, address
computations and loads. -/
inductive DependsOn (k : Kernel) : ValueId → ValueId → Prop
  | self (v : ValueId) : DependsOn k v v
  | operand {v o b : ValueId} {i : Instruction} (known : k.instruction? v = some i)
      (passes : i.opcode.isComputation = true ∨ i.opcode.isCast = true ∨
        i.opcode = .getElementPtr ∨ i.opcode = .load)
      (operand : o ∈ i.operands) (rest : DependsOn k o b) : DependsOn k v b

/-- The data of `v` is drawn from `b`. -/
inductive Draws (k : Kernel) : ValueId → ValueId → Prop
  | self (v : ValueId) : Draws k v v
  | operand {v o b : ValueId} {i : Instruction} (known : k.instruction? v = some i)
      (computes : i.opcode.isComputation = true) (data : ¬ k.FeedsAddress v)
      (operand : o ∈ i.operands) (rest : Draws k (k.underlying o) b) : Draws k v b
  | address {v a b : ValueId} {i : Instruction} (known : k.instruction? v = some i)
      (accesses : i.opcode.isAccess = true) (address : i.address? = some a)
      (rooted : k.RootedIn a b) : Draws k v b
  | stored {v x b : ValueId} {i : Instruction} (known : k.instruction? v = some i)
      (stored : i.stored? = some x) (rest : Draws k (k.underlying x) b) : Draws k v b

variable {k : Kernel}

/-- Arguments and globals are drawn from nothing. -/
theorem Draws.eq_of_isBase {v b : ValueId} {x : Value} (h : k.Draws v b)
    (hx : k.value? v = some x) (base : x.isBase = true) : b = v := by
  have hnone := instruction?_of_isBase hx base
  cases h with
  | self => rfl
  | operand known => simp [hnone] at known
  | address known => simp [hnone] at known
  | stored known => simp [hnone] at known

/-! ## Sources -/

/-- The sources of a computation are its operands, each seen through one cast. -/
theorem sources_of_isComputation {v : ValueId} {i : Instruction}
    (computes : i.opcode.isComputation = true) :
    Graph.sources k v i = .ok (i.operands.map k.underlying) := by
  unfold Graph.sources
  cases hop : i.opcode <;> rw [hop] at computes <;>
    first
    | rfl
    | cases computes

/-- The sources of a load or store are the bases of its address, and what is stored behind them. -/
theorem sources_of_isAccess {v a : ValueId} {i : Instruction} (accesses : i.opcode.isAccess = true)
    (ha : i.address? = some a) : Graph.sources k v i =
      (do return (← k.bases a) ++ (i.stored?.map k.underlying).toList) := by
  unfold Graph.sources
  rcases Opcode.isAccess_iff.mp accesses with hop | hop <;> rw [hop, ha]

theorem exists_address_of_isAccess {v : ValueId} {i : Instruction} {os : List ValueId}
    (accesses : i.opcode.isAccess = true) (h : Graph.sources k v i = .ok os) :
    ∃ a, i.address? = some a := by
  cases ha : i.address? with
  | some a => exact ⟨a, rfl⟩
  | none =>
      unfold Graph.sources at h
      rcases Opcode.isAccess_iff.mp accesses with hop | hop <;> simp [hop, ha] at h

theorem mem_sources_of_isAccess {v : ValueId} {i : Instruction} {os : List ValueId}
    (accesses : i.opcode.isAccess = true) (h : Graph.sources k v i = .ok os) :
    ∃ a, i.address? = some a ∧
      ∀ o, o ∈ os ↔ k.RootedIn a o ∨ ∃ x, i.stored? = some x ∧ k.underlying x = o := by
  obtain ⟨a, ha⟩ := exists_address_of_isAccess accesses h
  rw [sources_of_isAccess accesses ha] at h
  obtain ⟨bs, hbs, h⟩ := Outcome.bind_eq_ok.mp h
  obtain rfl := Outcome.pure_eq_ok.mp h
  refine ⟨a, ha, fun o => ?_⟩
  rw [List.mem_append, mem_bases hbs, Option.mem_toList, Option.map_eq_some_iff]

/-- One edge, in terms of the kernel: `o` is a source of the tracked instruction `v`. -/
def TakesFrom (k : Kernel) (v o : ValueId) : Prop :=
  ∃ i os, k.Tracks v i ∧ Graph.sources k v i = .ok os ∧ o ∈ os

/-- **A value is drawn on exactly if a chain of sources leads to it**, where sources are found. -/
theorem reflTransGen_takesFrom_iff
    (found : ∀ v i, k.Tracks v i → ∃ os, Graph.sources k v i = .ok os) {v b : ValueId} :
    Relation.ReflTransGen k.TakesFrom v b ↔ k.Draws v b := by
  constructor
  · intro h
    induction h using Relation.ReflTransGen.head_induction_on with
    | refl => exact .self b
    | head edge _ ih =>
        obtain ⟨i, os, t, hos, ho⟩ := edge
        rcases Bool.or_eq_true_iff.mp t.opcode with accesses | computes
        · obtain ⟨a, ha, hmem⟩ := mem_sources_of_isAccess accesses hos
          rcases (hmem _).mp ho with rooted | ⟨u, hu, rfl⟩
          · -- a root has no sources, so the chain ends there
            obtain ⟨y, hy, isBase⟩ := rooted.isBase
            obtain rfl := ih.eq_of_isBase hy isBase
            exact .address t.known accesses ha rooted
          · exact .stored t.known hu ih
        · -- a computation: the chain goes on from one of its operands
          rw [sources_of_isComputation computes] at hos
          obtain rfl := Except.ok.inj hos
          obtain ⟨u, hu, rfl⟩ := List.mem_map.mp ho
          exact .operand t.known computes t.data hu ih
  · intro h
    induction h with
    | self => exact .refl
    | operand known computes data operand _ ih =>
        refine .head ⟨_, _, ⟨known, ?_, data⟩, sources_of_isComputation computes, ?_⟩ ih
        · exact Bool.or_eq_true_iff.mpr (.inr computes)
        · exact List.mem_map_of_mem operand
    | address known accesses address rooted =>
        have t := Tracks.of_isAccess known accesses
        obtain ⟨os, hos⟩ := found _ _ t
        obtain ⟨a, ha, hmem⟩ := mem_sources_of_isAccess accesses hos
        obtain rfl := Option.some.inj (ha.symm.trans address)
        exact .single ⟨_, os, t, hos, (hmem _).mpr (.inl rooted)⟩
    | stored known stored _ ih =>
        have accesses := Instruction.isAccess_of_stored? stored
        have t := Tracks.of_isAccess known accesses
        obtain ⟨os, hos⟩ := found _ _ t
        obtain ⟨a, ha, hmem⟩ := mem_sources_of_isAccess accesses hos
        exact .head ⟨_, os, t, hos, (hmem _).mpr (.inr ⟨_, stored, rfl⟩)⟩ ih

end Kernel

/-! ## Reaching -/

namespace Graph

variable {k : Kernel} {g : Graph} {n m : NodeId}

def Uses (g : Graph) (n m : NodeId) : Prop :=
  ∃ node, g.nodes[n.index]? = some node ∧ m ∈ node.uses

/-- Use edges lead from `n` to the node of `b`. -/
def Reaches (g : Graph) (n : NodeId) (b : ValueId) : Prop :=
  ∃ m, g.nodeId? b = some m ∧ Relation.ReflTransGen g.Uses n m

theorem uses_iff : g.Uses n m ↔ m ∈ g.usesOf n := by
  unfold Uses usesOf
  cases g.nodes[n.index]? <;> simp

/-- The nodes that are linked are those of the values. -/
theorem Linked.mem_iff {os : List ValueId} {ms : List NodeId} (h : g.Linked os ms) :
    m ∈ ms ↔ ∃ o ∈ os, g.nodeId? o = some m := by
  induction h with
  | nil => simp
  | cons ho _ ih =>
      rw [List.mem_cons, ih]
      simp [ho, eq_comm]

theorem Linked.exists_node {os : List ValueId} {ms : List NodeId} (h : g.Linked os ms)
    {o : ValueId} (ho : o ∈ os) : ∃ m, g.nodeId? o = some m := by
  induction h with
  | nil => cases ho
  | cons hm _ ih =>
      rcases List.mem_cons.mp ho with rfl | ho
      · exact ⟨_, hm⟩
      · exact ih ho

namespace Swept

/-- A use edge leads from a value to one of its sources, and from a node there is one to each. -/
theorem uses_iff_takesFrom (h : Swept k k.instructions g) (wf : k.WellFormed) {v : ValueId}
    (hv : g.nodeId? v = some n) :
    g.Uses n m ↔ ∃ o, k.TakesFrom v o ∧ g.nodeId? o = some m := by
  rw [uses_iff]
  constructor
  · intro hm
    by_cases tracked : ∃ i, k.Tracks v i
    · obtain ⟨i, t⟩ := tracked
      obtain ⟨l, os, hl, hos, hlinked⟩ := h.linked (wf.mem_instructions.mpr ⟨i, t.known⟩) t
      obtain rfl := Option.some.inj (hl.symm.trans hv)
      obtain ⟨o, ho, hom⟩ := hlinked.mem_iff.mp hm
      exact ⟨o, ⟨i, os, t, hos, ho⟩, hom⟩
    · -- what is not tracked has no edges
      have hbare := h.bare hv fun _ i t => tracked ⟨i, t⟩
      rw [hbare] at hm
      cases hm
  · rintro ⟨o, ⟨i, os, t, hos, ho⟩, hom⟩
    obtain ⟨l, os', hl, hos', hlinked⟩ := h.linked (wf.mem_instructions.mpr ⟨i, t.known⟩) t
    obtain rfl := Option.some.inj (hl.symm.trans hv)
    obtain rfl := Except.ok.inj (hos.symm.trans hos')
    exact hlinked.mem_iff.mpr ⟨o, ho, hom⟩

/-- Every source of a value that has a node has a node. -/
theorem exists_node_of_takesFrom (h : Swept k k.instructions g) (wf : k.WellFormed)
    {v o : ValueId} (ho : k.TakesFrom v o) : ∃ m, g.nodeId? o = some m := by
  obtain ⟨i, os, t, hos, ho⟩ := ho
  obtain ⟨l, os', -, hos', hlinked⟩ := h.linked (wf.mem_instructions.mpr ⟨i, t.known⟩) t
  obtain rfl := Except.ok.inj (hos.symm.trans hos')
  exact hlinked.exists_node ho

/-- Paths in the graph are chains of sources. -/
theorem reaches_iff (h : Swept k k.instructions g) (wf : k.WellFormed) {v b : ValueId}
    (hv : g.nodeId? v = some n) :
    g.Reaches n b ↔ Relation.ReflTransGen k.TakesFrom v b := by
  constructor
  · rintro ⟨m, hb, path⟩
    induction path using Relation.ReflTransGen.head_induction_on generalizing v with
    | refl =>
        obtain rfl := h.registered.value_unique hv hb
        exact .refl
    | head edge _ ih =>
        obtain ⟨o, ho, hom⟩ := (h.uses_iff_takesFrom wf hv).mp edge
        exact .head ho (ih hom)
  · intro chain
    induction chain using Relation.ReflTransGen.head_induction_on generalizing n with
    | refl => exact ⟨n, hv, .refl⟩
    | head ho _ ih =>
        obtain ⟨l, hl⟩ := h.exists_node_of_takesFrom wf ho
        obtain ⟨m, hb, path⟩ := ih hl
        exact ⟨m, hb, .head ((h.uses_iff_takesFrom wf hv).mpr ⟨_, ho, hl⟩) path⟩

end Swept

end Graph

/-! ## What a node reaches -/

namespace Kernel

/-- **A node reaches exactly what its value draws on.** -/
theorem reaches_iff_draws {name : String} {script : List Step} {k : Kernel}
    (built : Kernel.ofScript? name script = some k) {overrides : Overrides} {a : Analysis}
    (analyzed : k.analyze overrides = .ok a) {n : NodeId} {node : Node}
    (hn : a.graph.nodes[n.index]? = some node) (b : ValueId) :
    a.graph.Reaches n b ↔ k.Draws node.value b := by
  have wf := ofScript?_wellFormed built
  obtain ⟨m, -, h⟩ := Outcome.bind_eq_ok.mp analyzed
  obtain ⟨g, hg, h⟩ := Outcome.bind_eq_ok.mp h
  obtain rfl := Outcome.pure_eq_ok.mp h
  have swept := Graph.swept_of_ofKernel wf hg
  rw [swept.reaches_iff wf (swept.registered.nodeId?_of_getElem? hn)]
  apply reflTransGen_takesFrom_iff
  intro v i t
  obtain ⟨-, os, -, hos, -⟩ := swept.linked (wf.mem_instructions.mpr ⟨i, t.known⟩) t
  exact ⟨os, hos⟩

/-- An element is loaded at a widened index and doubled. -/
def gatherScript : List Step :=
  [.param "p" (.pointer (.int 8)), .param "i" (.int 4), .block "entry", .moveTo ⟨0⟩,
    .cast .zext ⟨1⟩ 8 "wide", .elementPointer ⟨0⟩ [⟨2⟩] "address", .load ⟨3⟩ "x",
    .binary .add ⟨4⟩ ⟨4⟩ "twice", .ret none]

def gather : Kernel := (Kernel.ofScript? "gather" gatherScript).getD (.empty "gather")

/-- The sum reaches the index, though only through a load, an address and a cast. -/
theorem reaches_iff_draws_gather :
    Kernel.ofScript? "gather" gatherScript = some gather ∧
      ∃ a n node, gather.analyze .empty = .ok a ∧ a.graph.nodes[NodeId.index n]? = some node ∧
        node.value = ⟨5⟩ ∧ (a.graph.Reaches n ⟨1⟩ ↔ gather.Draws ⟨5⟩ ⟨1⟩) ∧
        a.graph.Reaches n ⟨1⟩ := by
  have built : Kernel.ofScript? "gather" gatherScript = some gather := rfl
  have hvalues : (gather.analyze .empty).toOption.bind
      (fun a => a.graph.nodes[3]?.map (·.value)) = some ⟨5⟩ := by decide +kernel
  have hrooted : gather.RootedIn ⟨3⟩ ⟨1⟩ := by
    refine .step (o := ⟨1⟩) (i := ⟨.getElementPtr, [⟨0⟩, ⟨2⟩], none, []⟩) ?_ ?_ (.base rfl rfl)
    · decide +kernel
    · decide +kernel
  have hdata : ¬ gather.FeedsAddress ⟨5⟩ := by
    have hop : gather.opcode? ⟨5⟩ = some .add := by decide +kernel
    have husers : gather.usersOf ⟨5⟩ = [] := by decide +kernel
    intro h
    cases h with
    | address hgep => simp [hop] at hgep
    | user _ _ hu => simp [husers] at hu
  -- through the sum to the load, and from there to the roots of its address
  have hdraws : gather.Draws ⟨5⟩ ⟨1⟩ := by
    refine .operand (o := ⟨4⟩) (i := ⟨.add, [⟨4⟩, ⟨4⟩], none, []⟩) ?_ rfl hdata ?_ ?_
    · decide +kernel
    · decide
    · show gather.Draws ⟨4⟩ ⟨1⟩
      refine .address (i := ⟨.load, [⟨3⟩], none, []⟩) ?_ rfl rfl hrooted
      decide +kernel
  cases analyzed : gather.analyze .empty with
  | error => simp [analyzed, Except.toOption] at hvalues
  | ok a =>
      simp only [analyzed, Except.toOption, Option.bind_some] at hvalues
      obtain ⟨node, hnode, hvalue⟩ := Option.map_eq_some_iff.mp hvalues
      have hiff := reaches_iff_draws built analyzed (n := ⟨3⟩) hnode ⟨1⟩
      rw [hvalue] at hiff
      exact ⟨built, a, ⟨3⟩, node, rfl, hnode, hvalue, hiff, hiff.mpr hdraws⟩

/-! ### A value that is used twice -/

/-- An index is computed for an address and then multiplied as well. -/
def reuseScript : List Step :=
  [.param "a" (.pointer (.int 8)), .param "i" (.int 8), .block "entry", .moveTo ⟨0⟩,
    .binary .add ⟨1⟩ ⟨1⟩ "next", .elementPointer ⟨0⟩ [⟨2⟩] "address", .binary .mul ⟨2⟩ ⟨2⟩ "y",
    .ret (some ⟨4⟩)]

def reuse : Kernel := (Kernel.ofScript? "reuse" reuseScript).getD (.empty "reuse")

/-- The product depends on `i`, but its operand feeds an address: no edge leads on, and `i` has no
node at all. -/
theorem reuse_drops_dependency :
    Kernel.ofScript? "reuse" reuseScript = some reuse ∧
      ∃ a n node i x, reuse.analyze .empty = .ok a ∧
        a.graph.nodes[NodeId.index n]? = some node ∧
        reuse.instruction? node.value = some i ∧ i.opcode.isComputation = true ∧
        reuse.value? ⟨1⟩ = some x ∧ x.isBase = true ∧ reuse.DependsOn node.value ⟨1⟩ ∧
        a.graph.nodeId? ⟨1⟩ = none ∧ ¬ a.graph.Reaches n ⟨1⟩ := by
  have built : Kernel.ofScript? "reuse" reuseScript = some reuse := rfl
  have hnodes : (reuse.analyze .empty).toOption.bind
      (fun a => a.graph.nodes[0]?.map fun node => (node.value, a.graph.nodeId? ⟨1⟩)) =
        some (⟨4⟩, none) := by decide +kernel
  have hnext : reuse.instruction? ⟨2⟩ = some ⟨.add, [⟨1⟩, ⟨1⟩], none, []⟩ := by decide +kernel
  have hy : reuse.instruction? ⟨4⟩ = some ⟨.mul, [⟨2⟩, ⟨2⟩], none, []⟩ := by decide +kernel
  have hdepends : reuse.DependsOn ⟨4⟩ ⟨1⟩ := by
    apply DependsOn.operand (o := ⟨2⟩) hy (.inl rfl) (by decide)
    apply DependsOn.operand (o := ⟨1⟩) hnext (.inl rfl) (by decide)
    exact .self _
  cases analyzed : reuse.analyze .empty with
  | error => simp [analyzed, Except.toOption] at hnodes
  | ok a =>
      simp only [analyzed, Except.toOption, Option.bind_some] at hnodes
      obtain ⟨node, hnode, hpair⟩ := Option.map_eq_some_iff.mp hnodes
      obtain ⟨hvalue, hnone⟩ := Prod.mk.inj hpair
      rw [← hvalue] at hy hdepends
      refine ⟨built, a, ⟨0⟩, node, _, _, rfl, hnode, hy, rfl, rfl, rfl, hdepends, hnone, ?_⟩
      -- reaching `i` takes a node for it
      rintro ⟨m, hm, -⟩
      rw [hnone] at hm
      cases hm

end Kernel

end Datapath
