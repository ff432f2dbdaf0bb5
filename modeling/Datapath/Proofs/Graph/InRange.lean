import Datapath.Graph.Label
import Datapath.Proofs.Graph.Refusals
import Datapath.Proofs.Graph.Verdict
import Datapath.Proofs.InRange

/-!
# No lookup of a graph is out of range

Construction asks for nodes of three sorts of values: instructions of a block, what an instruction
takes its data from, and conditions of branches. All of them are values of the kernel, so a graph is
made or the kernel is rejected, whatever widths there are (`inRange_ofKernel`).

Of a graph that was made, nodes stand for values of the kernel and edges lead to nodes. So labels,
checks and depths find what they look up.
-/

namespace Datapath

/-! ## Guards -/

namespace Guards

theorem inRange_bucketOf (numbering : Graph) (b : BlockId) : (bucketOf numbering b).InRange := by
  unfold bucketOf
  split
  · exact .pure _
  · exact .reject _

theorem inRange_enter (k : Kernel) (numbering : Graph) (block : Block) (terminator : ValueId)
    (i : Instruction) (guards : Guards) :
    (enter k numbering block terminator i guards).InRange := by
  unfold enter
  split
  · split
    · exact .reject _
    · refine .foldlM (fun guards target _ => ?_) guards
      exact (inRange_bucketOf numbering target.1).bind fun _ _ => .pure _
  · exact .pure _
  · exact .pure _
  · exact .reject _

/-- Guards are found for any kernel, or it is rejected. -/
theorem inRange_ofKernel (k : Kernel) (numbering : Graph) : (ofKernel k numbering).InRange := by
  refine .foldlM (fun guards block _ => ?_) _
  split
  · exact .pure _
  · split
    · exact .pure _
    · exact inRange_enter k numbering block _ _ guards

end Guards

namespace Graph

variable {k : Kernel} {w : Widths} {s : Setting} {g : Graph} {v o : ValueId} {i : Instruction}

/-! ## Sources -/

/-- The bases of an address can always be told. -/
theorem inRange_sources (wf : k.WellFormed) (hi : k.instruction? v = some i) :
    (sources k v i).InRange := by
  unfold sources
  split
  case h_3 => exact .pure _
  all_goals
    split
    · exact .reject _
    · next a ha =>
      have hlt := wf.operand_lt_size hi (Instruction.mem_operands_of_address? ha)
      exact (Outcome.InRange.of_exists (Kernel.exists_bases wf hlt)).bind fun _ _ => .pure _

/-- All but loads and stores take their operands, also instructions that no graph has a node for. -/
theorem sources_of_not_isAccess (h : ¬ i.opcode.isAccess = true) :
    sources k v i = .ok (i.operands.map k.underlying) := by
  unfold sources
  cases hop : i.opcode <;> first
    | exact absurd (by rw [hop]; rfl) h
    | rfl

/-- What an instruction takes its data from is a value of the kernel. -/
theorem lt_size_of_mem_sources (wf : k.WellFormed) (hi : k.instruction? v = some i)
    {os : List ValueId} (h : sources k v i = .ok os) (ho : o ∈ os) : o.index < k.size := by
  have through {x : ValueId} (hx : x ∈ i.operands) : (k.underlying x).index < k.size :=
    wf.underlying_lt_size (wf.operand_lt_size hi hx)
  by_cases accesses : i.opcode.isAccess = true
  · obtain ⟨a, -, hos⟩ := Kernel.mem_sources_of_isAccess accesses h
    rcases (hos o).mp ho with hroot | ⟨x, hx, rfl⟩
    · -- a root of the address
      obtain ⟨x, hx, -⟩ := hroot.isBase
      exact Kernel.value?_lt hx
    · -- the stored value
      exact through (Instruction.mem_operands_of_stored? hx)
  · obtain rfl := Except.ok.inj (h.symm.trans (sources_of_not_isAccess accesses))
    obtain ⟨x, hx, rfl⟩ := List.mem_map.mp ho
    exact through hx

/-! ## Construction -/

/-- Construction goes on in range where the records of the kernel agree and guards are conditions of
branches. -/
structure Setting.Sound (s : Setting) : Prop where
  consistent : s.kernel.Consistent
  branching : s.guards.Branching s.kernel

section

variable (hs : s.Sound)
include hs

/-- A value gets its node, or its width is missing. -/
theorem inRange_request (hv : v.index < s.kernel.size) (bucket : Nat) (g : Graph) :
    (request s bucket g v).InRange := by
  refine (s.widths.inRange_width v).bind fun width _ => ?_
  split
  · exact .pure _
  · have hkind := Kernel.exists_kind hs.consistent hv
    exact (Outcome.InRange.of_exists hkind).bind fun _ _ => .pure _

theorem inRange_traceChain (hi : s.kernel.instruction? v = some i) (g : Graph) :
    (traceChain s v g).InRange := by
  have wf := hs.consistent.toWellFormed
  unfold traceChain
  split
  · exact .pure _
  · refine (Kernel.inRange_basePointer wf (Kernel.instruction?_lt hi)).bind fun base _ => ?_
    refine Outcome.InRange.bind (.mapM fun x hx => ?_) fun parts _ => ?_
    · rw [hi] at hx
      exact Kernel.inRange_operations wf
        (wf.operand_lt_size hi (Instruction.mem_operands_of_mem_indices hx))
    · refine Outcome.InRange.bind (.mapM fun o _ => ?_) fun _ _ => .pure _
      exact (s.widths.inRange_width o).bind fun _ _ => .pure _

theorem inRange_traceAddress (i : Instruction) (g : Graph) : (traceAddress s i g).InRange := by
  rcases traceAddress_cases s i g with hpass | ⟨a, -, -, computed, htrace⟩
  · exact .of_exists ⟨g, hpass⟩
  · rw [htrace]
    obtain ⟨j, hj, -⟩ := Option.map_eq_some_iff.mp computed
    exact inRange_traceChain hs hj g

theorem inRange_applyGuard (bucket : Nat) (n : NodeId) (g : Graph) :
    (applyGuard s bucket n g).InRange := by
  unfold applyGuard
  split
  · exact .pure _
  · next guard hguard =>
    -- the condition is an operand of the branch
    obtain ⟨u, j, hj, -, hc⟩ := hs.branching bucket guard hguard
    have hlt := hs.consistent.toWellFormed.operand_lt_size hj
      (Instruction.mem_operands_of_operand? hc)
    exact (inRange_request hs hlt bucket g).bind fun _ _ => .pure _

/-- Every node that is asked for on the way is that of a value of the kernel. -/
theorem inRange_addInstruction (hi : s.kernel.instruction? v = some i) (bucket : Nat) (g : Graph) :
    (addInstruction s bucket v i g).InRange := by
  have wf := hs.consistent.toWellFormed
  refine (inRange_request hs (Kernel.instruction?_lt hi) bucket g).bind fun r _ => ?_
  refine (inRange_sources wf hi).bind fun os hos => ?_
  refine Outcome.InRange.bind (.foldlM (fun g o ho => ?_) _) fun g _ => ?_
  · have hlt := lt_size_of_mem_sources wf hi hos ho
    exact (inRange_request hs hlt bucket g).bind fun _ _ => .pure _
  · exact (inRange_traceAddress hs i g).bind fun _ _ => inRange_applyGuard hs bucket r.2 _

/-- A visit takes the instruction in, passes over it or rejects it. -/
theorem inRange_visit (bucket : Nat) (g : Graph) (v : ValueId) : (visit s bucket g v).InRange := by
  unfold visit
  split
  · exact .pure _
  · next i hi =>
    -- what feeds an address is passed over
    split
    · exact .pure _
    · split
      case h_16 => exact .reject _
      all_goals first
        | exact inRange_addInstruction hs hi bucket g
        | exact .pure _

end

/-- **A graph is made or the kernel is rejected**, whatever widths there are. -/
theorem inRange_ofKernel (h : k.Consistent) (w : Widths) : (ofKernel k w).InRange := by
  refine (Guards.inRange_ofKernel k (numbered k)).bind fun guards hguards => ?_
  have hfeeds := FeedTable.exists_ofKernel h
  refine (Outcome.InRange.of_exists hfeeds).bind fun feeds _ => ?_
  have hs : Setting.Sound ⟨k, w, guards, feeds⟩ := ⟨h, Guards.branching_of_ofKernel hguards⟩
  exact .foldlM (fun g entry _ => .foldlM (fun g v _ => inRange_visit hs entry.2 g v) g) _

/-! ## Nodes of a finished graph -/

/-- Nodes stand for values of the kernel. -/
theorem value_lt_size (h : ofKernel k w = .ok g) {n : NodeId} {node : Node}
    (hn : g.nodes[n.index]? = some node) : node.value.index < k.size := by
  obtain ⟨x, hx, -⟩ := Outcome.bind_eq_ok.mp (described_of_ofKernel h n node hn).kind
  exact Kernel.value?_lt (Kernel.value_eq_ok.mp hx)

theorem inRange_place (wf : k.WellFormed) (hi : k.instruction? v = some i) :
    (place k v i).InRange := by
  unfold place
  split
  · next a ha =>
    have hlt := wf.operand_lt_size hi (Instruction.mem_operands_of_address? ha)
    exact Kernel.inRange_written wf hlt
  · exact .reject _

theorem inRange_instructionLabel (wf : k.WellFormed) (hi : k.instruction? v = some i) (x : Value) :
    (instructionLabel k v x i).InRange := by
  have hplace := inRange_place wf hi
  have hsymbol := Kernel.inRange_symbol (Kernel.instruction?_lt hi)
  unfold instructionLabel
  split
  case h_13 => exact .reject _
  all_goals first
    | exact .pure _
    | exact hplace.bind fun _ _ => .pure _
    | exact hsymbol.bind fun _ _ => .pure _

/-- **A node of a finished graph has a label or is rejected.** -/
theorem inRange_label (wf : k.WellFormed) (h : ofKernel k w = .ok g) {n : NodeId}
    (hn : n.index < g.nodes.size) : (g.label k n).InRange := by
  have hget := Array.getElem?_eq_getElem hn
  have hnode : g.node n = .ok g.nodes[n.index] := by rw [node, hget]
  refine (Outcome.InRange.of_exists ⟨_, hnode⟩).bind fun node hnode' => ?_
  obtain rfl := Except.ok.inj (hnode.symm.trans hnode')
  refine (Kernel.inRange_value (value_lt_size h hget)).bind fun x hx => ?_
  split
  · exact .pure _
  · exact .pure _
  · exact .pure _
  · next i block hk =>
    refine inRange_instructionLabel wf ?_ x
    rw [Kernel.instruction?_of_value? (Kernel.value_eq_ok.mp hx), Value.instruction?, hk]

/-- **A graph that was made can be checked**, against any record of widths. -/
theorem exists_verify (h : ofKernel k w = .ok g) (recorded : Widths) :
    ∃ r, g.verify k recorded = .ok r := by
  obtain ⟨found, hfound⟩ := exists_controlViolations (g := g) (k := k) fun node hnode => by
    obtain ⟨n, hn⟩ := Array.mem_iff_getElem?.mp (Array.mem_toList_iff.mp hnode)
    exact Kernel.exists_value? (value_lt_size h (n := ⟨n⟩) hn)
  exact ⟨_, by rw [verify, hfound]; rfl⟩

end Graph

end Datapath
