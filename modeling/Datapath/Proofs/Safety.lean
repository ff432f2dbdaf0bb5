import Datapath.Proofs.Graph.Strict

/-!
# Kernels that scripts build are safe to analyse

Calls accept much that no analysis is made for: any opcode with any number of operands, and branches
to blocks that are not there. What they do not accept is an operand that is not there. So whatever
the records of a kernel number exists, but for those blocks (`Kernel.Closed`). And whatever is asked
about such a kernel, and about the graph made of it with whatever widths, there is an answer or a
rejection: nothing is looked up out of range (`Kernel.safe_of_ofScript?`).
-/

namespace Datapath

namespace Kernel

variable {k : Kernel}

/-- Whatever value or block the records of a kernel number is there, but for the successors of
branches. -/
structure Closed (k : Kernel) : Prop where
  users_size : k.users.size = k.size
  operand_lt : ∀ {v i o}, k.instruction? v = some i → o ∈ i.operands → o.index < k.size
  user_lt : ∀ {v u}, u ∈ k.usersOf v → u.index < k.size
  block_lt : ∀ {v x i b}, k.value? v = some x → x.kind = .instruction i b →
    b.index < k.blocks.size
  listed_lt : ∀ {v}, v ∈ k.instructions → v.index < k.size
  param_lt : ∀ {v}, v ∈ k.params → v.index < k.size
  global_lt : ∀ {v}, v ∈ k.globals → v.index < k.size

theorem Consistent.closed (h : k.Consistent) : k.Closed where
  users_size := h.users_size
  operand_lt := h.toWellFormed.operand_lt_size
  user_lt hu := (h.user_lt hu).2
  block_lt := h.toWellFormed.block_lt
  listed_lt hv := by
    obtain ⟨i, hi⟩ := h.toWellFormed.mem_instructions.mp hv
    exact instruction?_lt hi
  param_lt hv := by
    obtain ⟨x, hx, -⟩ := h.mem_params.mp hv
    exact value?_lt hx
  global_lt hv := by
    obtain ⟨x, hx, -⟩ := h.mem_globals.mp hv
    exact value?_lt hx

/-- **Nothing is looked up out of range** in a kernel that a script builds, nor in its graph.

* The numbers in its records are those of its values and blocks.
* Inference of widths ends in an answer or a rejection, for all overrides and caps, and from
  whatever progress it goes on.
* So do the questions about one value. Accesses, bases and the kind of its node always have an
  answer, and so has the table of what feeds an address.
* With whatever widths, a graph is made or the kernel is rejected, and all that construction writes
  to is there.
* The nodes of the graph have labels or are rejected. All depths that its critical path takes are
  there, in rounds as well as in one pass in the order of a sort, and metrics look up nothing else.
  Its check comes to a verdict. -/
theorem safe_of_ofScript? {name : String} {script : List Step}
    (built : Kernel.ofScript? name script = some k) :
    k.Closed ∧
    (∀ overrides cap, (k.seeds overrides).InRange ∧ (k.inferWithin overrides cap).InRange) ∧
    (∀ limit p, (k.run limit p).InRange) ∧ Infer.FaultsAre Fault.IsRejection (Infer.pass k) ∧
    (∃ feeds, FeedTable.ofKernel k = .ok feeds) ∧
    (∀ v : ValueId, v.index < k.size →
      (∃ access, k.access v = .ok access) ∧ (∃ bases, k.bases v = .ok bases) ∧
      (k.operations v).InRange ∧ (k.basePointer v).InRange ∧
      (∃ kind, NodeKind.ofValue k v = .ok kind) ∧ (k.written v).InRange ∧ (k.symbol v).InRange) ∧
    ∀ widths, (Graph.ofKernel k widths).InRange ∧
      Graph.ofKernelStrict k widths = Graph.ofKernel k widths ∧
      ∀ g, Graph.ofKernel k widths = .ok g →
        (∀ n : NodeId, n.index < g.nodes.size → (g.label k n).InRange) ∧
        g.criticalPathStrict = .ok g.criticalPath? ∧
        (∀ sort, Flow.Sorts sort → g.criticalPathByStrict sort = .ok (g.criticalPathBy sort)) ∧
        ∀ recorded, ∃ r, g.verify k recorded = .ok r := by
  have h := ofScript?_consistent built
  have wf := h.toWellFormed
  refine ⟨h.closed, fun overrides cap => ?_, fun limit p => inRange_settle wf _ p,
    Infer.rejects_pass wf, FeedTable.exists_ofKernel h, fun v hv => ?_, fun widths => ?_⟩
  · exact ⟨inRange_seeds wf overrides, inRange_inferWithin wf overrides cap⟩
  · obtain ⟨access, haccess, -⟩ := exists_access h hv
    exact ⟨⟨access, haccess⟩, exists_bases wf hv, inRange_operations wf hv,
      inRange_basePointer wf hv, exists_kind h hv, inRange_written wf hv, inRange_symbol hv⟩
  · refine ⟨Graph.inRange_ofKernel h widths, Graph.ofKernelStrict_eq wf widths, fun g hg => ?_⟩
    have closed := (Graph.closed_of_ofKernel hg).2
    refine ⟨fun n hn => Graph.inRange_label wf hg hn, Graph.criticalPathStrict_eq closed,
      fun sort sorts => ?_, Graph.exists_verify hg⟩
    refine Graph.criticalPathByStrict_eq closed fun order horder n hn => ?_
    -- use edges form no cycle, so the order is sorted and lists nodes
    have acyclic := Graph.acyclic_flow (Graph.descends_of_ofKernel wf hg)
    obtain ⟨order', horder', sorted⟩ := sorts g.flow (Graph.closed_flow closed) acyclic
    obtain rfl := Option.some.inj (horder.symm.trans horder')
    exact List.mem_range.mp (sorted.perm.mem_iff.mp hn)

/-- An addition of one operand, a merge of nothing as an index, and a branch to nowhere. -/
def raggedScript : List Step :=
  [.param "p" (.pointer (.int 8)), .param "x" (.int 8), .block "entry", .moveTo ⟨0⟩,
    .instruction .add [⟨1⟩] (.int 8) "half", .instruction .phi [] (.int 8) "merge",
    .elementPointer ⟨0⟩ [⟨3⟩] "at", .branch ⟨7⟩]

def ragged : Kernel := (Kernel.ofScript? "ragged" raggedScript).getD (.empty "ragged")

/-- Its widths are rejected and so is the text of the sum; with widths made up, it has a graph. -/
theorem safe_of_ofScript?_ragged : Kernel.ofScript? "ragged" raggedScript = some ragged ∧
    (∃ why, ragged.inferWithin .empty none = .error (.rejected why)) ∧
    (∃ why, ragged.written ⟨2⟩ = .error (.rejected why)) ∧
    ∃ g, Graph.ofKernel ragged (ragged.uniform 8) = .ok g ∧ g.nodes.size = 2 ∧
      (g.label ragged ⟨0⟩).InRange ∧ g.criticalPathStrict = .ok (some 2) ∧
      g.criticalPathByStrict Flow.sortByHeight = .ok (some 2) := by
  have built : Kernel.ofScript? "ragged" raggedScript = some ragged := rfl
  obtain ⟨-, hinfer, -, -, -, hvalues, hgraph⟩ := safe_of_ofScript? built
  obtain ⟨-, -, -, -, -, hwritten, -⟩ := hvalues ⟨2⟩ (by decide +kernel)
  have hshape : (Graph.ofKernel ragged (ragged.uniform 8)).toOption.map (fun g =>
      (g.nodes.size, g.criticalPath?, g.criticalPathBy Flow.sortByHeight)) =
        some (2, some 2, some 2) := by decide +kernel
  refine ⟨built, (hinfer .empty none).2.exists_rejection (by decide +kernel),
    hwritten.exists_rejection (by decide +kernel), ?_⟩
  obtain ⟨g, made, hshape⟩ := Outcome.exists_of_toOption_map hshape
  simp only [Prod.mk.injEq] at hshape
  obtain ⟨hsize, hpath, hby⟩ := hshape
  obtain ⟨-, -, hown⟩ := hgraph (ragged.uniform 8)
  obtain ⟨hlabel, hdepths, hsorted, -⟩ := hown g made
  exact ⟨g, made, hsize, hlabel ⟨0⟩ (by rw [hsize]; decide), by rw [hdepths, hpath],
    by rw [hsorted _ Flow.sorts_sortByHeight, hby]⟩

end Kernel

end Datapath
