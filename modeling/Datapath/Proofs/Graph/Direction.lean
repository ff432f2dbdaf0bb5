import Datapath.Proofs.Address.Tracing
import Datapath.Proofs.Graph.Dependency
import Datapath.Proofs.Graph.Recorded

/-!
# The direction of parameters

The node of a pointer parameter says whether memory is read or written through it. The answer is
right for what the forward walk meets: `Kernel.AccessedThrough`. An access of which the address is
traced to the parameter gives it a node in any case, and if the trace is unbroken then the walk
meets the access and the direction counts it in. Where arithmetic stands on an address computation
the walk has stopped before, and the access may be missed.
-/

namespace Datapath

/-- What is written counts as an output, whether or not it is read as well. -/
theorem NodeKind.isOut_ofAccess (access : Access) :
    ofAccess access = .outParam ∨ ofAccess access = .inOutParam ↔ access.writes = true := by
  unfold ofAccess
  cases access.writes <;> cases access.reads <;> simp

/-- What is not accessed at all counts as an input. -/
theorem NodeKind.isIn_ofAccess (access : Access) :
    ofAccess access = .inParam ∨ ofAccess access = .inOutParam ↔
      access.reads = true ∨ access.writes = false := by
  unfold ofAccess
  cases access.writes <;> cases access.reads <;> simp

namespace Kernel

variable {k : Kernel} {p : ValueId} {x : Value}

/-- A pointer parameter has a kind: the direction in which memory is accessed through it. -/
theorem ofValue_of_pointer (hp : k.value? p = some x) (argument : x.isArgument = true)
    (pointer : x.type.isPointer = true) {access : Access} (haccess : k.access p = .ok access) :
    NodeKind.ofValue k p = .ok (.ofAccess access) := by
  obtain ⟨n, hn⟩ : ∃ n, x.kind = .argument n := by
    cases hk : x.kind with
    | argument n => exact ⟨n, rfl⟩
    | _ => simp [Value.isArgument, hk] at argument
  unfold NodeKind.ofValue
  rw [value_eq_ok.mpr hp]
  simp only [bind, Except.bind, hn, pointer, if_true, haccess]
  rfl

/-- The kind of a pointer parameter, by what is accessed through it. -/
theorem direction_iff (h : k.Consistent) (hp : k.value? p = some x)
    (argument : x.isArgument = true) (pointer : x.type.isPointer = true) {kind : NodeKind}
    (hkind : NodeKind.ofValue k p = .ok kind) :
    (kind = .outParam ∨ kind = .inOutParam ↔ k.AccessedThrough .store p) ∧
      (kind = .inParam ∨ kind = .inOutParam ↔
        k.AccessedThrough .load p ∨ ¬ k.AccessedThrough .store p) := by
  obtain ⟨access, haccess, hreads, hwrites⟩ := exists_access h (value?_lt hp)
  obtain rfl := Except.ok.inj (hkind.symm.trans (ofValue_of_pointer hp argument pointer haccess))
  rw [NodeKind.isOut_ofAccess, NodeKind.isIn_ofAccess, ← hreads, ← hwrites, Bool.not_eq_true]
  exact ⟨Iff.rfl, Iff.rfl⟩

end Kernel

namespace Graph

variable {k : Kernel} {g : Graph}

/-- What an access is rooted in has a node. -/
theorem Swept.exists_node_of_rootedIn (h : Swept k k.instructions g) (wf : k.WellFormed)
    {u a b : ValueId} {i : Instruction} (hi : k.instruction? u = some i)
    (accesses : i.opcode.isAccess = true) (ha : i.address? = some a) (rooted : k.RootedIn a b) :
    ∃ n, g.nodeId? b = some n := by
  have t := Kernel.Tracks.of_isAccess hi accesses
  obtain ⟨-, os, -, hos, -⟩ := h.linked (wf.mem_instructions.mpr ⟨i, hi⟩) t
  obtain ⟨a', ha', hmem⟩ := Kernel.mem_sources_of_isAccess accesses hos
  obtain rfl := Option.some.inj (ha'.symm.trans ha)
  exact h.exists_node_of_takesFrom wf ⟨i, os, t, hos, (hmem b).mpr (.inl rooted)⟩

/-- The node of a value that has one. -/
theorem Registered.node?_of_nodeId? (h : g.Registered) {v : ValueId} {n : NodeId}
    (hv : g.nodeId? v = some n) :
    ∃ node, g.node? v = some node ∧ g.nodes[n.index]? = some node ∧ node.value = v := by
  obtain ⟨node, hnode, hvalue⟩ := Option.map_eq_some_iff.mp ((h v n).mp hv)
  exact ⟨node, by rw [node?, hv, Option.bind_some, hnode], hnode, hvalue⟩

/-- The kind of a pointer parameter's node, by what is accessed through the parameter. -/
theorem Swept.direction_iff (h : Swept k k.instructions g) (consistent : k.Consistent)
    {widths : Widths} (hg : ofKernel k widths = .ok g) {p : ValueId} {x : Value}
    (hp : k.value? p = some x) (argument : x.isArgument = true)
    (pointer : x.type.isPointer = true) {node : Node} (hnode : g.node? p = some node) :
    (node.kind = .outParam ∨ node.kind = .inOutParam ↔ k.AccessedThrough .store p) ∧
      (node.kind = .inParam ∨ node.kind = .inOutParam ↔
        k.AccessedThrough .load p ∨ ¬ k.AccessedThrough .store p) := by
  obtain ⟨n, hn, hget⟩ := Option.bind_eq_some_iff.mp hnode
  obtain ⟨node', -, hget', hvalue⟩ := h.registered.node?_of_nodeId? hn
  obtain rfl := Option.some.inj (hget'.symm.trans hget)
  have hkind := (described_of_ofKernel hg n node' hget).kind
  rw [hvalue] at hkind
  exact Kernel.direction_iff consistent hp argument pointer hkind

end Graph

namespace Kernel

/-- **The direction of a pointer parameter.** It counts in what is accessed through the parameter,
and that includes every access of which the address is traced to the parameter by an unbroken trace.
Any access with an address that is traced to the parameter gives it a node. -/
theorem direction_counts_accesses {name : String} {script : List Step} {k : Kernel}
    (built : Kernel.ofScript? name script = some k) {overrides : Overrides} {analysis : Analysis}
    (analyzed : k.analyze overrides = .ok analysis) {p : ValueId} {x : Value}
    (hp : k.value? p = some x) (argument : x.isArgument = true)
    (pointer : x.type.isPointer = true) :
    (∀ u i a, k.instruction? u = some i → i.opcode.isAccess = true → i.address? = some a →
      k.basePointer a = .ok p → ∃ node, analysis.graph.node? p = some node ∧
        (k.Unbroken a →
          (i.opcode = .store → node.kind = .outParam ∨ node.kind = .inOutParam) ∧
          (i.opcode = .load → node.kind = .inParam ∨ node.kind = .inOutParam))) ∧
    ∀ node, analysis.graph.node? p = some node →
      (node.kind = .outParam ∨ node.kind = .inOutParam ↔ k.AccessedThrough .store p) ∧
      (node.kind = .inParam ∨ node.kind = .inOutParam ↔
        k.AccessedThrough .load p ∨ ¬ k.AccessedThrough .store p) := by
  have consistent := ofScript?_consistent built
  have wf := consistent.toWellFormed
  obtain ⟨widths, -, h⟩ := Outcome.bind_eq_ok.mp analyzed
  obtain ⟨g, hg, h⟩ := Outcome.bind_eq_ok.mp h
  obtain rfl := Outcome.pure_eq_ok.mp h
  have swept := Graph.swept_of_ofKernel wf hg
  have direction (node : Node) (hnode : g.node? p = some node) :=
    swept.direction_iff consistent hg hp argument pointer hnode
  refine ⟨?_, direction⟩
  intro u i a hi accesses ha hbase
  obtain ⟨way, y, hy, base⟩ := traces_of_basePointer hbase
  obtain ⟨n, hn⟩ := swept.exists_node_of_rootedIn wf hi accesses ha (rootedIn_of_traces way hy base)
  obtain ⟨node, hnode, -⟩ := swept.registered.node?_of_nodeId? hn
  refine ⟨node, hnode, fun unbroken => ?_⟩
  obtain ⟨load, store⟩ := not_access_of_traces way hy base
  have through := accessedThrough_of_follows consistent
    (follows_of_traces consistent way unbroken hy base) load store hi ha
  obtain ⟨hout, hin⟩ := direction node hnode
  constructor
  · intro hop
    rw [hop] at through
    exact hout.mpr through
  · intro hop
    rw [hop] at through
    exact hin.mpr (.inl through)

/-- A byte is stored behind an element: the address is a sum, and the sum stands on an address
computation. -/
def overshootScript : List Step :=
  [.param "p" (.pointer (.int 8)), .param "i" (.int 8), .constant 1 8, .block "entry", .moveTo ⟨0⟩,
    .elementPointer ⟨0⟩ [⟨1⟩] "element", .binary .add ⟨3⟩ ⟨2⟩ "behind", .store ⟨1⟩ ⟨4⟩, .ret none]

def overshoot : Kernel := (Kernel.ofScript? "overshoot" overshootScript).getD (.empty "overshoot")

/-- The address of the store is traced to the parameter, and the direction of that is in. -/
theorem direction_counts_accesses_overshoot :
    Kernel.ofScript? "overshoot" overshootScript = some overshoot ∧
      overshoot.basePointer ⟨4⟩ = .ok ⟨0⟩ ∧
      ∃ analysis node, overshoot.analyze .empty = .ok analysis ∧
        analysis.graph.node? ⟨0⟩ = some node ∧ node.kind = .inParam ∧
        ¬ overshoot.AccessedThrough .store ⟨0⟩ ∧ ¬ overshoot.Unbroken ⟨4⟩ := by
  have built : Kernel.ofScript? "overshoot" overshootScript = some overshoot := rfl
  have hkind : (overshoot.analyze .empty).toOption.bind (fun a =>
      (a.graph.node? ⟨0⟩).map (·.kind)) = some .inParam := by decide +kernel
  have hbase : overshoot.basePointer ⟨4⟩ = .ok ⟨0⟩ := by
    rw [← Outcome.toOption_eq_some]
    decide +kernel
  cases analyzed : overshoot.analyze .empty with
  | error => simp [analyzed, Except.toOption] at hkind
  | ok analysis =>
      simp only [analyzed, Except.toOption, Option.bind_some] at hkind
      obtain ⟨node, hnode, hin⟩ := Option.map_eq_some_iff.mp hkind
      obtain ⟨counted, direction⟩ := direction_counts_accesses built analyzed (p := ⟨0⟩) rfl rfl rfl
      have hstore : ¬ overshoot.AccessedThrough .store ⟨0⟩ := by
        rw [← (direction node hnode).1, hin]
        rintro (⟨⟨⟩⟩ | ⟨⟨⟩⟩)
      refine ⟨built, hbase, analysis, node, rfl, hnode, hin, hstore, fun unbroken => ?_⟩
      -- an unbroken trace would have the store counted in
      obtain ⟨node', hnode', hmet⟩ := counted ⟨5⟩ ⟨.store, [⟨1⟩, ⟨4⟩], none, []⟩ ⟨4⟩
        (by decide +kernel) rfl rfl hbase
      obtain rfl := Option.some.inj (hnode'.symm.trans hnode)
      exact hstore ((direction node' hnode).1.mp ((hmet unbroken).1 rfl))

end Kernel

end Datapath
